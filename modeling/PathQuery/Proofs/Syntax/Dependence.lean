import Mathlib.Logic.Relation
import PathQuery.Proofs.Path.Acceptance
import PathQuery.Syntax.Basic

/-!
# Which nodes a value depends on

A guard can bind the edge to a variable while its condition is evaluated.  So a node asks for its
children in one of two ways: for the condition of such a guard under a new binding, and for all
others under the bindings that it is evaluated under itself.

* `SyntaxGraph.Asks`, `SyntaxGraph.Binds`: the two ways;
* `SyntaxGraph.Below`: the nodes that are asked for in either way, directly or not;
* `SyntaxGraph.Mentions`: a variable on whose binding a node can depend;
* `SyntaxGraph.Refers`: what guards and fixed edges of an automaton may refer to.
-/

namespace PathQuery

namespace Node

def guard : Node → Option Guard
  | simplePath _ _ _ guard => guard
  | edgePath _ _ _ _ guard => guard
  | _ => none

/-- The condition of a guard that binds nothing. -/
def plainPredicate (guard : Option Guard) : List NodeId :=
  match guard with
  | some ⟨predicate, none⟩ => [predicate]
  | _ => []

/-- The children that are evaluated under the bindings of the node. -/
def asked : Node → List NodeId
  | simplePath _ _ _ guard => plainPredicate guard
  | edgePath _ edge _ _ guard => edge :: plainPredicate guard
  | node => node.children

theorem mem_children_iff {node : Node} {c : NodeId} :
    c ∈ node.children ↔ c ∈ node.asked ∨ ∃ x, node.guard = some ⟨c, some x⟩ := by
  have hguard : ∀ guard : Option Guard, c ∈ guardChildren guard ↔
      c ∈ plainPredicate guard ∨ ∃ x, guard = some ⟨c, some x⟩ := by
    rintro (_ | ⟨predicate, _ | y⟩) <;> simp [guardChildren, plainPredicate, eq_comm]
  cases node with
  | simplePath _ _ _ guard => exact hguard guard
  | edgePath _ edge _ _ guard =>
    simp only [children, asked, Node.guard, List.mem_cons, hguard, or_assoc]
  | _ => simp [children, asked, guard]

theorem mem_asked_of_guard {node : Node} {predicate : NodeId}
    (h : node.guard = some ⟨predicate, none⟩) : predicate ∈ node.asked := by
  cases node with
  | simplePath _ _ _ _ =>
    cases h
    exact List.mem_singleton_self predicate
  | edgePath _ _ _ _ _ =>
    cases h
    exact List.mem_cons_of_mem _ (List.mem_singleton_self predicate)
  | _ => cases h

end Node

namespace SyntaxGraph

variable (nodes : SyntaxGraph)

/-- The first node asks for the second one under its own bindings. -/
def Asks (n c : NodeId) : Prop :=
  ∃ node, nodes.get n = .ok node ∧ c ∈ node.asked

/-- The first node holds a guard with the second one for its condition, which binds the variable. -/
def Binds (n predicate : NodeId) (x : String) : Prop :=
  ∃ node, nodes.get n = .ok node ∧ node.guard = some ⟨predicate, some x⟩

def Below : NodeId → NodeId → Prop :=
  Relation.ReflTransGen fun n c => c ∈ nodes.childrenOf n

/-- The value of the node can depend on the binding of the variable. -/
inductive Mentions (x : String) : NodeId → Prop where
  | var {n : NodeId} : nodes.get n = .ok (.var x) → Mentions x n
  | asks {n c : NodeId} : nodes.Asks n c → Mentions x c → Mentions x n
  | binds {n predicate : NodeId} {y : String} : nodes.Binds n predicate y → y ≠ x →
    Mentions x predicate → Mentions x n

/-- The guard is one of a node that is asked for, directly or not. -/
def Holds (id : NodeId) (guard : Guard) : Prop :=
  ∃ n node, Relation.ReflTransGen nodes.Asks id n ∧ nodes.get n = .ok node ∧
    node.guard = some guard

/-- The symbol's guard and edge are those of nodes that are asked for, directly or not. -/
def Refers (id : NodeId) : Symbol → Prop
  | .epsilon => True
  | .step c => ∀ guard, c.guard = some guard → nodes.Holds id guard
  | .stepAlong c edge => (∀ guard, c.guard = some guard → nodes.Holds id guard) ∧
    ∃ n, Relation.ReflTransGen nodes.Asks id n ∧ nodes.Asks n edge

variable {nodes}

theorem mem_childrenOf_iff {n c : NodeId} :
    c ∈ nodes.childrenOf n ↔ nodes.Asks n c ∨ ∃ x, nodes.Binds n c x := by
  unfold childrenOf Asks Binds
  cases hget : nodes.get n with
  | error e => simp
  | ok node => simp [Node.mem_children_iff]

theorem Asks.below {n c : NodeId} (h : nodes.Asks n c) : nodes.Below n c :=
  .single (mem_childrenOf_iff.2 (.inl h))

theorem Binds.below {n predicate : NodeId} {x : String} (h : nodes.Binds n predicate x) :
    nodes.Below n predicate :=
  .single (mem_childrenOf_iff.2 (.inr ⟨x, h⟩))

theorem below_of_asks {n c : NodeId} (h : Relation.ReflTransGen nodes.Asks n c) :
    nodes.Below n c := by
  induction h with
  | refl => exact .refl
  | tail _ h ih => exact ih.trans h.below

theorem Mentions.of_asks {id n : NodeId} {x : String}
    (hn : Relation.ReflTransGen nodes.Asks id n) (h : nodes.Mentions x n) : nodes.Mentions x id := by
  induction hn using Relation.ReflTransGen.head_induction_on with
  | refl => exact h
  | head hasks _ ih => exact .asks hasks ih

theorem refers_reversed {id : NodeId} (symbol : Symbol) (h : nodes.Refers id symbol) :
    nodes.Refers id symbol.reversed := by
  cases symbol with
  | epsilon => trivial
  | step c => exact h
  | stepAlong c edge => exact h

theorem refers_of_isPlain {id : NodeId} (symbol : Symbol) (h : symbol.isPlain = true) :
    nodes.Refers id symbol := by
  cases symbol with
  | epsilon => trivial
  | step c =>
    intro guard hguard
    rw [Symbol.isPlain, hguard] at h
    cases h
  | stepAlong c edge => cases h

theorem Holds.of_asks {id c : NodeId} {guard : Guard} (hc : nodes.Asks id c)
    (h : nodes.Holds c guard) : nodes.Holds id guard := by
  rcases h with ⟨n, node, hn, hget, hguard⟩
  exact ⟨n, node, .head hc hn, hget, hguard⟩

/-- What an asked node refers to, the node that asks refers to. -/
theorem Refers.of_asks {id c : NodeId} (hc : nodes.Asks id c) (symbol : Symbol)
    (h : nodes.Refers c symbol) : nodes.Refers id symbol := by
  cases symbol with
  | epsilon => trivial
  | step _ => exact fun guard hguard => (h guard hguard).of_asks hc
  | stepAlong _ edge =>
    rcases h with ⟨hguard, n, hn, hedge⟩
    exact ⟨fun guard heq => (hguard guard heq).of_asks hc, n, .head hc hn, hedge⟩

end SyntaxGraph
end PathQuery

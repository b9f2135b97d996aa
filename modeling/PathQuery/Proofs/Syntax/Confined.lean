import PathQuery.Proofs.Syntax.Dependence

/-!
# Conditions that keep to themselves

The variable of a guard is bound only while its condition is evaluated.  What depends on it should
be asked for by the condition alone.

* `SyntaxGraph.Private`: the nodes that depend on the variable of a guard;
* `SyntaxGraph.Public`: all others;
* `SyntaxGraph.Confined`: nothing else asks for them, and they do not lead back to their guard;
* `Region`: nodes that can be asked for under one set of bindings, and those among them whose
  values do not depend on any other;
* `Region.whole`, `Region.under`: the region of a query and the one of a condition.
-/

namespace PathQuery
namespace SyntaxGraph

variable (nodes : SyntaxGraph)

/-- The node belongs to the condition of a guard and depends on the variable that it binds. -/
structure Private (holder predicate : NodeId) (x : String) (n : NodeId) : Prop where
  binds : nodes.Binds holder predicate x
  below : nodes.Below predicate n
  mentions : nodes.Mentions x n

/-- The node can be asked for anywhere. -/
def Public (n : NodeId) : Prop :=
  ∀ holder predicate x, ¬ nodes.Private holder predicate x n

/-- Enough for conditions not to get into each other's way.  It also rules out that two guards share
such a node, although each of them resets it. -/
structure Confined : Prop where
  /-- A private node is asked for inside the condition only. -/
  apart {holder predicate n m : NodeId} {x : String} :
    nodes.Private holder predicate x n → nodes.Asks m n → nodes.Below predicate m
  /-- A private node does not lead back to the guard. -/
  forward {holder predicate n : NodeId} {x : String} :
    nodes.Private holder predicate x n → ¬ nodes.Below n holder

variable {nodes}

theorem Private.of_asks (hconfined : nodes.Confined) {holder predicate n m : NodeId} {x : String}
    (h : nodes.Private holder predicate x n) (hm : nodes.Asks m n) :
    nodes.Private holder predicate x m where
  binds := h.binds
  below := hconfined.apart h hm
  mentions := .asks hm h.mentions

/-- Going up from a node that depends on a variable, either everything does, or a guard binds the
variable on the way. -/
theorem mentions_or_private {p n : NodeId} {x : String} (hbelow : nodes.Below p n)
    (hmentions : nodes.Mentions x n) :
    nodes.Mentions x p ∨
      ∃ holder predicate, nodes.Below p holder ∧ nodes.Private holder predicate x n := by
  -- From below: each step up either asks under the same bindings or enters a guard.
  induction hbelow using Relation.ReflTransGen.head_induction_on with
  | refl => exact .inl hmentions
  | head hstep hrest ih =>
    rename_i a c
    rcases ih with hc | ⟨holder, predicate, hholder, hprivate⟩
    · rcases mem_childrenOf_iff.1 hstep with hasks | ⟨y, hbinds⟩
      · exact .inl (.asks hasks hc)
      · by_cases hy : y = x
        · subst hy
          exact .inr ⟨a, c, .refl, hbinds, hrest, hmentions⟩
        · exact .inl (.binds hbinds hy hc)
    · exact .inr ⟨holder, predicate, .head hstep hholder, hprivate⟩

end SyntaxGraph

/-- The nodes that can be asked for under one set of bindings.  What is known of the trusted ones
stays true when a guard inside the region is entered and left. -/
structure Region (nodes : SyntaxGraph) where
  reaches : NodeId → Prop
  trusts : NodeId → Prop
  reaches_of_trusts {n : NodeId} : trusts n → reaches n
  reaches_below {n c : NodeId} : reaches n → nodes.Below n c → reaches c
  trusts_asked {n c : NodeId} : trusts n → nodes.Asks n c → trusts c
  /-- No guard of the region has a trusted node to itself. -/
  not_private {holder predicate n : NodeId} {x : String} : trusts n → reaches holder →
    ¬ nodes.Private holder predicate x n
  /-- A guard that has one to itself has the whole region in its condition. -/
  surrounded {holder predicate n m : NodeId} {x : String} : trusts n → reaches m →
    nodes.Private holder predicate x n → nodes.Below predicate m

namespace Region

variable {nodes : SyntaxGraph}

theorem trusts_of_asks (Γ : Region nodes) {n c : NodeId} (hn : Γ.trusts n)
    (h : Relation.ReflTransGen nodes.Asks n c) : Γ.trusts c := by
  induction h with
  | refl => exact hn
  | tail _ hc ih => exact Γ.trusts_asked ih hc

/-- Everything, and what can be asked for anywhere. -/
def whole (hconfined : nodes.Confined) : Region nodes where
  reaches _ := True
  trusts n := nodes.Public n
  reaches_of_trusts _ := trivial
  reaches_below _ _ := trivial
  trusts_asked hn hc holder predicate x hprivate :=
    hn holder predicate x (hprivate.of_asks hconfined hc)
  not_private hn _ hprivate := hn _ _ _ hprivate
  surrounded hn _ hprivate := absurd hprivate (hn _ _ _)

/-- A condition with all that is below it, and what is private to no other guard than those to which
the condition is private itself. -/
def under (hconfined : nodes.Confined) (root : NodeId) : Region nodes where
  reaches n := nodes.Below root n
  trusts n := nodes.Below root n ∧
    ∀ holder predicate x, nodes.Private holder predicate x n →
      nodes.Private holder predicate x root
  reaches_of_trusts hn := hn.1
  reaches_below hn hc := hn.trans hc
  trusts_asked hn hc := ⟨hn.1.trans hc.below, fun holder predicate x hprivate =>
    hn.2 holder predicate x (hprivate.of_asks hconfined hc)⟩
  not_private hn hholder hprivate := hconfined.forward (hn.2 _ _ _ hprivate) hholder
  surrounded hn hm hprivate := (hn.2 _ _ _ hprivate).below.trans hm

theorem under_trusts_root (hconfined : nodes.Confined) (root : NodeId) :
    (under hconfined root).trusts root :=
  ⟨.refl, fun _ _ _ hprivate => hprivate⟩

/-- What is trusted outside a condition is trusted inside it. -/
theorem under_trusts (hconfined : nodes.Confined) (Γ : Region nodes)
    {holder predicate n : NodeId} {x : String} (hholder : Γ.reaches holder)
    (hbinds : nodes.Binds holder predicate x) (hn : Γ.trusts n) (hbelow : nodes.Below predicate n) :
    (under hconfined predicate).trusts n := by
  have hpredicate : Γ.reaches predicate := Γ.reaches_below hholder hbinds.below
  refine ⟨hbelow, ?_⟩
  intro holder' predicate' y hprivate
  refine ⟨hprivate.binds, Γ.surrounded hn hpredicate hprivate, ?_⟩
  -- Were the variable bound again on the way down, the node would be private to a guard inside.
  rcases SyntaxGraph.mentions_or_private hbelow hprivate.mentions with
    hmentions | ⟨_, _, hinside, hprivate'⟩
  · exact hmentions
  · exact absurd hprivate' (Γ.not_private hn (Γ.reaches_below hpredicate hinside))

end Region
end PathQuery

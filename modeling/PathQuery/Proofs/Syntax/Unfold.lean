import Mathlib.Data.Fintype.Card
import Mathlib.Logic.Relation
import PathQuery.Syntax.Basic

/-!
# Path descriptions as patterns

Nodes can be shared, so a path description is a graph.  Without cycles it unfolds to a pattern.

* `SyntaxGraph.Unfolds`: a node stands for a pattern;
* `Pattern.Admissible`: alternatives have branches and exponents are within the bound;
* `Node.IsUnguarded`, `Node.IsCompilable`: the nodes of path descriptions that ask for nothing but
  structure, and those of them that can be compiled;
* `exists_unfolds`: an acyclic description unfolds to a pattern;
* `height_le_size`: the pattern is not higher than there are nodes;
* `unfolds_lower`: lowering a pattern gives a node that stands for it.
-/

namespace PathQuery

namespace Pattern

mutual

def Admissible : Pattern → Prop
  | edge _ _ _ => True
  | seq parts => AllAdmissible parts
  | alt parts => parts ≠ [] ∧ AllAdmissible parts
  | star inner => inner.Admissible
  | plus inner => inner.Admissible
  | optional inner => inner.Admissible
  | power inner n => n ≤ maxExponent ∧ inner.Admissible
  | transpose inner => inner.Admissible

def AllAdmissible : List Pattern → Prop
  | [] => True
  | p :: ps => p.Admissible ∧ AllAdmissible ps

end

mutual

def height : Pattern → Nat
  | edge _ _ _ => 1
  | seq parts => heightAll parts + 1
  | alt parts => heightAll parts + 1
  | star inner => inner.height + 1
  | plus inner => inner.height + 1
  | optional inner => inner.height + 1
  | power inner _ => inner.height + 1
  | transpose inner => inner.height + 1

def heightAll : List Pattern → Nat
  | [] => 0
  | p :: ps => max p.height (heightAll ps)

end

/-- The patterns right below the pattern. -/
def parts : Pattern → List Pattern
  | edge _ _ _ => []
  | seq parts => parts
  | alt parts => parts
  | star inner => [inner]
  | plus inner => [inner]
  | optional inner => [inner]
  | power inner _ => [inner]
  | transpose inner => [inner]

/-- The node of the pattern when its parts have the numbers. -/
def toNode : Pattern → List NodeId → Node
  | edge direction types roles, _ => .simplePath direction types roles none
  | seq _, ids => .sequence ids
  | alt _, ids => .alternative ids
  | star _, ids => .iterated (ids.headD 0) .star
  | plus _, ids => .iterated (ids.headD 0) .plus
  | optional _, ids => .optional (ids.headD 0)
  | power _ n, ids => .exponentiated (ids.headD 0) n
  | transpose _, ids => .transposed (ids.headD 0)

theorem height_eq (p : Pattern) : p.height = heightAll p.parts + 1 := by
  cases p <;> simp [height, heightAll, parts]

theorem height_le_heightAll {p : Pattern} {ps : List Pattern} (h : p ∈ ps) :
    p.height ≤ heightAll ps := by
  induction ps with
  | nil => exact absurd h List.not_mem_nil
  | cons q ps ih =>
    rcases List.mem_cons.1 h with rfl | h
    · exact Nat.le_max_left _ _
    · exact Nat.le_trans (ih h) (Nat.le_max_right _ _)

theorem allAdmissible_parts {p : Pattern} (h : p.Admissible) : AllAdmissible p.parts := by
  cases p with
  | edge _ _ _ => exact trivial
  | seq _ => exact h
  | alt _ => exact h.2
  | power _ _ => exact ⟨h.2, trivial⟩
  | _ => exact ⟨h, trivial⟩

theorem children_toNode {p : Pattern} {ids : List NodeId} (h : ids.length = p.parts.length) :
    (p.toNode ids).children = ids := by
  have hsingle : ids.length = 1 → [ids.headD 0] = ids := by
    intro hlength
    rcases List.length_eq_one_iff.1 hlength with ⟨id, rfl⟩
    rfl
  cases p with
  | edge _ _ _ => exact (List.length_eq_zero_iff.1 h).symm
  | seq _ => rfl
  | alt _ => rfl
  | _ => exact hsingle h

/-- A pattern is made of its node and its parts. -/
theorem eq_of_toNode_eq {p q : Pattern} {ids : List NodeId} (hnode : p.toNode ids = q.toNode ids)
    (hparts : p.parts = q.parts) : p = q := by
  cases p <;> cases q <;> simp_all [toNode, parts]

theorem allAdmissible_append {ps : List Pattern} {p : Pattern} (hps : AllAdmissible ps)
    (hp : p.Admissible) : AllAdmissible (ps ++ [p]) := by
  induction ps with
  | nil => exact ⟨hp, trivial⟩
  | cons q ps ih => exact ⟨hps.1, ih hps.2⟩

theorem height_pos (p : Pattern) : 0 < p.height := by
  rw [height_eq]
  exact Nat.succ_pos _

end Pattern

namespace Node

/-- A node of a path description, with neither a guard nor a fixed edge. -/
def IsUnguarded : Node → Prop
  | simplePath _ _ _ guard => guard = none
  | sequence _ => True
  | alternative _ => True
  | iterated _ _ => True
  | optional _ => True
  | exponentiated _ _ => True
  | transposed _ => True
  | _ => False

/-- An alternative has branches and an exponent is within the bound. -/
def IsCompilable : Node → Prop
  | alternative parts => parts ≠ []
  | exponentiated _ n => n ≤ Pattern.maxExponent
  | _ => True

end Node

namespace SyntaxGraph

variable (nodes : SyntaxGraph)

/-! ## Unfolding -/

mutual

def Unfolds : NodeId → Pattern → Prop
  | id, .edge direction types roles => nodes.get id = .ok (.simplePath direction types roles none)
  | id, .seq parts => ∃ ids, nodes.get id = .ok (.sequence ids) ∧ UnfoldsAll ids parts
  | id, .alt parts => ∃ ids, nodes.get id = .ok (.alternative ids) ∧ UnfoldsAll ids parts
  | id, .star inner => ∃ child, nodes.get id = .ok (.iterated child .star) ∧ Unfolds child inner
  | id, .plus inner => ∃ child, nodes.get id = .ok (.iterated child .plus) ∧ Unfolds child inner
  | id, .optional inner => ∃ child, nodes.get id = .ok (.optional child) ∧ Unfolds child inner
  | id, .power inner n =>
    ∃ child, nodes.get id = .ok (.exponentiated child n) ∧ Unfolds child inner
  | id, .transpose inner => ∃ child, nodes.get id = .ok (.transposed child) ∧ Unfolds child inner

def UnfoldsAll : List NodeId → List Pattern → Prop
  | ids, [] => ids = []
  | ids, p :: ps => ∃ id rest, ids = id :: rest ∧ Unfolds id p ∧ UnfoldsAll rest ps

end

variable {nodes}

theorem length_eq_of_unfoldsAll {ids : List NodeId} {ps : List Pattern}
    (h : nodes.UnfoldsAll ids ps) : ids.length = ps.length := by
  induction ps generalizing ids with
  | nil =>
    obtain rfl : ids = [] := h
    rfl
  | cons p ps ih =>
    rcases h with ⟨id, rest, rfl, _, hrest⟩
    exact congrArg Nat.succ (ih hrest)

theorem unfoldsAll_singleton {ids : List NodeId} {p : Pattern} :
    nodes.UnfoldsAll ids [p] ↔ ∃ id, ids = [id] ∧ nodes.Unfolds id p := by
  constructor
  · rintro ⟨id, _, rfl, hp, rfl⟩
    exact ⟨id, rfl, hp⟩
  · rintro ⟨id, rfl, hp⟩
    exact ⟨id, [], rfl, hp, rfl⟩

/-- All patterns unfold in one way: the node is the pattern's, and its children unfold to the
parts. -/
theorem unfolds_iff {id : NodeId} {p : Pattern} : nodes.Unfolds id p ↔
    ∃ ids, nodes.get id = .ok (p.toNode ids) ∧ nodes.UnfoldsAll ids p.parts := by
  have hunary : ∀ (f : NodeId → Node) (inner : Pattern),
      (∃ child, nodes.get id = .ok (f child) ∧ nodes.Unfolds child inner) ↔
        ∃ ids, nodes.get id = .ok (f (ids.headD 0)) ∧ nodes.UnfoldsAll ids [inner] := by
    intro f inner
    constructor
    · rintro ⟨child, hget, hchild⟩
      exact ⟨[child], hget, unfoldsAll_singleton.2 ⟨child, rfl, hchild⟩⟩
    · rintro ⟨ids, hget, hall⟩
      rcases unfoldsAll_singleton.1 hall with ⟨child, rfl, hchild⟩
      exact ⟨child, hget, hchild⟩
  cases p with
  | edge _ _ _ => exact ⟨fun hget => ⟨[], hget, rfl⟩, fun ⟨_, hget, _⟩ => hget⟩
  | seq _ => exact Iff.rfl
  | alt _ => exact Iff.rfl
  | star inner => exact hunary (.iterated · .star) inner
  | plus inner => exact hunary (.iterated · .plus) inner
  | optional inner => exact hunary .optional inner
  | power inner n => exact hunary (.exponentiated · n) inner
  | transpose inner => exact hunary .transposed inner

theorem unfoldsAll_unique {ps qs : List Pattern} {ids : List NodeId}
    (h : ∀ p ∈ ps, ∀ {q id}, nodes.Unfolds id p → nodes.Unfolds id q → p = q)
    (hp : nodes.UnfoldsAll ids ps) (hq : nodes.UnfoldsAll ids qs) : ps = qs := by
  induction ps generalizing qs ids with
  | nil =>
    obtain rfl : ids = [] := hp
    exact (List.length_eq_zero_iff.1 (length_eq_of_unfoldsAll hq).symm).symm
  | cons p ps ih =>
    rcases hp with ⟨id, rest, rfl, hp, hps⟩
    cases qs with
    | nil => exact absurd hq (List.cons_ne_nil id rest)
    | cons q qs =>
      rcases hq with ⟨id', rest', heq, hq, hqs⟩
      cases heq
      rw [h p List.mem_cons_self hp hq,
        ih (fun r hr => h r (List.mem_cons_of_mem p hr)) hps hqs]

/-- A node stands for one pattern only. -/
theorem unfolds_unique {p q : Pattern} {id : NodeId} (hp : nodes.Unfolds id p)
    (hq : nodes.Unfolds id q) : p = q := by
  induction hheight : p.height using Nat.strong_induction_on generalizing p q id with
  | _ height ih =>
    subst hheight
    rcases unfolds_iff.1 hp with ⟨ids, hget, hall⟩
    rcases unfolds_iff.1 hq with ⟨ids', hget', hall'⟩
    have hnode : p.toNode ids = q.toNode ids' := Except.ok.inj (hget.symm.trans hget')
    have hids : ids = ids' :=
      calc
        ids = (p.toNode ids).children :=
          (Pattern.children_toNode (length_eq_of_unfoldsAll hall)).symm
        _ = (q.toNode ids').children := congrArg Node.children hnode
        _ = ids' := Pattern.children_toNode (length_eq_of_unfoldsAll hall')
    subst hids
    refine Pattern.eq_of_toNode_eq hnode (unfoldsAll_unique ?_ hall hall')
    intro r hr r' c hc hc'
    refine ih r.height ?_ hc hc' rfl
    rw [p.height_eq]
    exact Nat.lt_succ_of_le (Pattern.height_le_heightAll hr)

/-! ## Children -/

theorem exists_unfolds_of_mem {ids : List NodeId} {ps : List Pattern}
    (h : nodes.UnfoldsAll ids ps) {id : NodeId} (hid : id ∈ ids) :
    ∃ p, nodes.Unfolds id p ∧ p.height ≤ Pattern.heightAll ps ∧
      (Pattern.AllAdmissible ps → p.Admissible) := by
  induction ps generalizing ids with
  | nil =>
    obtain rfl : ids = [] := h
    exact absurd hid List.not_mem_nil
  | cons p ps ih =>
    rcases h with ⟨first, rest, rfl, hfirst, hrest⟩
    rcases List.mem_cons.1 hid with rfl | hid
    · exact ⟨p, hfirst, Nat.le_max_left _ _, fun h => h.1⟩
    · rcases ih hrest hid with ⟨q, hq, hheight, hadmissible⟩
      exact ⟨q, hq, Nat.le_trans hheight (Nat.le_max_right _ _), fun h => hadmissible h.2⟩

/-- The children of a node stand for lower patterns, and for admissible ones if the node does. -/
theorem unfolds_child {id : NodeId} {p : Pattern} (h : nodes.Unfolds id p) {node : Node}
    (hget : nodes.get id = .ok node) {child : NodeId} (hchild : child ∈ node.children) :
    ∃ q, nodes.Unfolds child q ∧ q.height < p.height ∧ (p.Admissible → q.Admissible) := by
  rcases unfolds_iff.1 h with ⟨ids, hget', hall⟩
  rw [hget] at hget'
  cases hget'
  rw [Pattern.children_toNode (length_eq_of_unfoldsAll hall)] at hchild
  rcases exists_unfolds_of_mem hall hchild with ⟨q, hq, hheight, hadmissible⟩
  refine ⟨q, hq, ?_, fun h => hadmissible (Pattern.allAdmissible_parts h)⟩
  rw [p.height_eq]
  exact Nat.lt_succ_of_le hheight

/-- If all children stand for patterns, so does the node. -/
theorem exists_unfoldsAll {ids : List NodeId}
    (h : ∀ id ∈ ids, ∃ p, nodes.Unfolds id p ∧ p.Admissible) :
    ∃ ps, nodes.UnfoldsAll ids ps ∧ Pattern.AllAdmissible ps ∧ ps.length = ids.length := by
  induction ids with
  | nil =>
    exact ⟨[], rfl, trivial, rfl⟩
  | cons id rest ih =>
    rcases h id List.mem_cons_self with ⟨p, hp, hadmissible⟩
    rcases ih fun c hc => h c (List.mem_cons_of_mem id hc) with ⟨ps, hps, hall, hlength⟩
    exact ⟨p :: ps, ⟨id, rest, rfl, hp, hps⟩, ⟨hadmissible, hall⟩, congrArg Nat.succ hlength⟩

theorem unfoldsAll_append {ids : List NodeId} {ps : List Pattern} {id : NodeId} {p : Pattern}
    (hall : nodes.UnfoldsAll ids ps) (hp : nodes.Unfolds id p) :
    nodes.UnfoldsAll (ids ++ [id]) (ps ++ [p]) := by
  induction ps generalizing ids with
  | nil =>
    obtain rfl : ids = [] := hall
    exact ⟨id, [], rfl, hp, rfl⟩
  | cons q ps ih =>
    rcases hall with ⟨c, rest, rfl, hq, hrest⟩
    exact ⟨c, rest ++ [id], rfl, hq, ih hrest⟩

theorem isUnguarded_of_unfolds {id : NodeId} {p : Pattern} (h : nodes.Unfolds id p) {node : Node}
    (hget : nodes.get id = .ok node) : node.IsUnguarded := by
  rcases unfolds_iff.1 h with ⟨ids, hget', _⟩
  rw [hget] at hget'
  cases hget'
  cases p with
  | edge _ _ _ => exact rfl
  | _ => exact trivial

theorem isCompilable_of_unfolds {id : NodeId} {p : Pattern} (h : nodes.Unfolds id p)
    (hadmissible : p.Admissible) {node : Node} (hget : nodes.get id = .ok node) :
    node.IsCompilable := by
  rcases unfolds_iff.1 h with ⟨ids, hget', hall⟩
  rw [hget] at hget'
  cases hget'
  cases p with
  | alt parts =>
    rintro rfl
    exact hadmissible.1 (List.length_eq_zero_iff.1 (length_eq_of_unfoldsAll hall).symm)
  | power _ _ => exact hadmissible.1
  | _ => exact trivial

theorem exists_unfolds_of_children {id : NodeId} {node : Node} (hget : nodes.get id = .ok node)
    (hunguarded : node.IsUnguarded) (hcompilable : node.IsCompilable)
    (h : ∀ child ∈ node.children, ∃ p, nodes.Unfolds child p ∧ p.Admissible) :
    ∃ p, nodes.Unfolds id p ∧ p.Admissible := by
  cases node with
  | simplePath direction types roles guard =>
    obtain rfl : guard = none := hunguarded
    exact ⟨.edge direction types roles, hget, trivial⟩
  | sequence ids =>
    rcases exists_unfoldsAll h with ⟨ps, hps, hall, _⟩
    exact ⟨.seq ps, ⟨ids, hget, hps⟩, hall⟩
  | alternative ids =>
    rcases exists_unfoldsAll h with ⟨ps, hps, hall, hlength⟩
    refine ⟨.alt ps, ⟨ids, hget, hps⟩, ?_, hall⟩
    rintro rfl
    exact hcompilable (List.length_eq_zero_iff.1 hlength.symm)
  | iterated child iteration =>
    rcases h child (List.mem_singleton_self child) with ⟨p, hp, hadmissible⟩
    cases iteration with
    | star => exact ⟨.star p, ⟨child, hget, hp⟩, hadmissible⟩
    | plus => exact ⟨.plus p, ⟨child, hget, hp⟩, hadmissible⟩
  | optional child =>
    rcases h child (List.mem_singleton_self child) with ⟨p, hp, hadmissible⟩
    exact ⟨.optional p, ⟨child, hget, hp⟩, hadmissible⟩
  | exponentiated child n =>
    rcases h child (List.mem_singleton_self child) with ⟨p, hp, hadmissible⟩
    exact ⟨.power p n, ⟨child, hget, hp⟩, hcompilable, hadmissible⟩
  | transposed child =>
    rcases h child (List.mem_singleton_self child) with ⟨p, hp, hadmissible⟩
    exact ⟨.transpose p, ⟨child, hget, hp⟩, hadmissible⟩
  | _ => exact absurd hunguarded (by simp [Node.IsUnguarded])

/-! ## Acyclic descriptions -/

/-- The second node is a child of the first one. -/
def IsChild (nodes : SyntaxGraph) (n child : NodeId) : Prop :=
  child ∈ nodes.childrenOf n

theorem isChild_iff {n child : NodeId} {node : Node} (hget : nodes.get n = .ok node) :
    nodes.IsChild n child ↔ child ∈ node.children := by
  rw [IsChild, childrenOf, hget]

/-- A path description without guards and fixed edges, that never refers back to a node on the way
from its root. -/
structure IsPlainDescription (nodes : SyntaxGraph) (root : NodeId) : Prop where
  plain {n : NodeId} : Relation.ReflTransGen nodes.IsChild root n →
    ∃ node, nodes.get n = .ok node ∧ node.IsUnguarded ∧ node.IsCompilable
  acyclic {n : NodeId} : Relation.ReflTransGen nodes.IsChild root n →
    ¬ Relation.TransGen nodes.IsChild n n

theorem IsPlainDescription.isUnguarded {root n : NodeId} {node : Node}
    (h : nodes.IsPlainDescription root) (hn : Relation.ReflTransGen nodes.IsChild root n)
    (hget : nodes.get n = .ok node) : node.IsUnguarded := by
  rcases h.plain hn with ⟨node', hget', hunguarded, _⟩
  rw [hget] at hget'
  cases hget'
  exact hunguarded

open Classical in
/-- The nodes below a node, itself not included unless it is below itself. -/
noncomputable def strictlyBelow (nodes : SyntaxGraph) (n : NodeId) : Finset NodeId :=
  (Finset.range nodes.size).filter fun m => Relation.TransGen nodes.IsChild n m

open Classical in
theorem mem_strictlyBelow {n m : NodeId} :
    m ∈ nodes.strictlyBelow n ↔ m < nodes.size ∧ Relation.TransGen nodes.IsChild n m := by
  rw [strictlyBelow, Finset.mem_filter, Finset.mem_range]

/-- Nodes that refer only to earlier ones make no cycle. -/
theorem IsPlainDescription.of_descending {root : NodeId}
    (h : ∀ n ≤ root, ∃ node, nodes.get n = .ok node ∧ node.IsUnguarded ∧ node.IsCompilable ∧
      ∀ child ∈ node.children, child < n) : nodes.IsPlainDescription root := by
  have hlt : ∀ {n child : NodeId}, n ≤ root → nodes.IsChild n child → child < n := by
    intro n child hn hchild
    rcases h n hn with ⟨node, hget, _, _, hless⟩
    exact hless child ((isChild_iff hget).1 hchild)
  have hle : ∀ {n : NodeId}, Relation.ReflTransGen nodes.IsChild root n → n ≤ root := by
    intro n hn
    induction hn with
    | refl => exact Nat.le_refl root
    | tail _ hchild ih => exact Nat.le_trans (Nat.le_of_lt (hlt ih hchild)) ih
  have hless : ∀ {n m : NodeId}, n ≤ root → Relation.TransGen nodes.IsChild n m → m < n := by
    intro n m hn hm
    induction hm with
    | single hchild => exact hlt hn hchild
    | tail _ hchild ih =>
      exact Nat.lt_trans (hlt (Nat.le_trans (Nat.le_of_lt ih) hn) hchild) ih
  constructor
  · intro n hn
    rcases h n (hle hn) with ⟨node, hget, hunguarded, hcompilable, _⟩
    exact ⟨node, hget, hunguarded, hcompilable⟩
  · intro n hn hcycle
    exact Nat.lt_irrefl n (hless (hle hn) hcycle)

theorem IsPlainDescription.below {root n : NodeId} (h : nodes.IsPlainDescription root)
    (hn : Relation.ReflTransGen nodes.IsChild root n) : nodes.IsPlainDescription n where
  plain hm := h.plain (hn.trans hm)
  acyclic hm := h.acyclic (hn.trans hm)

theorem card_strictlyBelow_lt {root child : NodeId} (h : nodes.IsPlainDescription root)
    (hchild : nodes.IsChild root child) :
    (nodes.strictlyBelow child).card < (nodes.strictlyBelow root).card := by
  have hbelow : Relation.ReflTransGen nodes.IsChild root child := .single hchild
  apply Finset.card_lt_card
  refine (Finset.ssubset_iff_of_subset ?_).2 ⟨child, ?_, ?_⟩
  · intro m hm
    rcases mem_strictlyBelow.1 hm with ⟨hlt, hbelow⟩
    exact mem_strictlyBelow.2 ⟨hlt, .head hchild hbelow⟩
  · rcases h.plain hbelow with ⟨node, hget, _⟩
    exact mem_strictlyBelow.2 ⟨lt_size_of_get hget, .single hchild⟩
  · intro hmem
    exact h.acyclic hbelow (mem_strictlyBelow.1 hmem).2

theorem exists_unfolds {root : NodeId} (h : nodes.IsPlainDescription root) :
    ∃ p, nodes.Unfolds root p ∧ p.Admissible := by
  induction hcard : (nodes.strictlyBelow root).card using Nat.strong_induction_on
    generalizing root with
  | _ card ih =>
    subst hcard
    rcases h.plain .refl with ⟨node, hget, hunguarded, hcompilable⟩
    refine exists_unfolds_of_children hget hunguarded hcompilable ?_
    intro child hmem
    have hchild : nodes.IsChild root child := (isChild_iff hget).2 hmem
    exact ih _ (card_strictlyBelow_lt h hchild) (h.below (.single hchild)) rfl

/-! ## Height -/

theorem exists_heightAll_eq {ids : List NodeId} {ps : List Pattern}
    (h : nodes.UnfoldsAll ids ps) (hpos : 0 < Pattern.heightAll ps) :
    ∃ id p, nodes.Unfolds id p ∧ p.height = Pattern.heightAll ps := by
  induction ps generalizing ids with
  | nil =>
    exact absurd hpos (Nat.lt_irrefl 0)
  | cons p ps ih =>
    rcases h with ⟨id, rest, rfl, hp, hrest⟩
    rcases Nat.le_total (Pattern.heightAll ps) p.height with hle | hle
    · exact ⟨id, p, hp, (Nat.max_eq_left hle).symm⟩
    · rcases ih hrest (Nat.lt_of_lt_of_le p.height_pos hle) with ⟨id', q, hq, hheight⟩
      exact ⟨id', q, hq, hheight.trans (Nat.max_eq_right hle).symm⟩

/-- Below a pattern of more than one level there is a node one level lower. -/
theorem exists_height_pred {id : NodeId} {p : Pattern} {k : Nat} (h : nodes.Unfolds id p)
    (hheight : p.height = k + 1) (hpos : 0 < k) :
    ∃ child q, nodes.Unfolds child q ∧ q.height = k := by
  rcases unfolds_iff.1 h with ⟨ids, _, hall⟩
  have hparts : Pattern.heightAll p.parts = k := Nat.succ.inj (p.height_eq.symm.trans hheight)
  rw [← hparts] at hpos ⊢
  exact exists_heightAll_eq hall hpos

theorem exists_height_eq {id : NodeId} {p : Pattern} (h : nodes.Unfolds id p) (steps : Nat)
    (hsteps : steps < p.height) :
    ∃ n q, nodes.Unfolds n q ∧ q.height + steps = p.height := by
  induction steps with
  | zero =>
    exact ⟨id, p, h, rfl⟩
  | succ steps ih =>
    rcases ih (Nat.lt_of_succ_lt hsteps) with ⟨n, q, hq, hheight⟩
    rcases exists_height_pred hq (k := q.height - 1) (by omega) (by omega) with ⟨m, r, hr, hlower⟩
    exact ⟨m, r, hr, by omega⟩

theorem exists_get {id : NodeId} {p : Pattern} (h : nodes.Unfolds id p) :
    ∃ node, nodes.get id = .ok node := by
  rcases unfolds_iff.1 h with ⟨ids, hget, _⟩
  exact ⟨_, hget⟩

/-- Every level of a pattern takes a node of its own. -/
theorem height_le_size {id : NodeId} {p : Pattern} (h : nodes.Unfolds id p) :
    p.height ≤ nodes.size := by
  have hlevels : ∀ i : Fin p.height, ∃ n : Fin nodes.size, ∃ q, nodes.Unfolds n q ∧
      q.height + i = p.height := by
    intro i
    rcases exists_height_eq h i i.isLt with ⟨n, q, hq, hheight⟩
    rcases exists_get hq with ⟨node, hget⟩
    exact ⟨⟨n, lt_size_of_get hget⟩, q, hq, hheight⟩
  choose node hnode using hlevels
  have hinjective : Function.Injective node := by
    intro i j hij
    rcases hnode i with ⟨q, hq, hi⟩
    rcases hnode j with ⟨r, hr, hj⟩
    rw [hij] at hq
    rw [unfolds_unique hq hr] at hi
    exact Fin.ext (by omega)
  have hcard := Fintype.card_le_of_injective node hinjective
  rwa [Fintype.card_fin, Fintype.card_fin] at hcard

/-! ## Lowering -/

/-- The second graph has the nodes of the first one, and perhaps more. -/
def Keeps (nodes nodes' : SyntaxGraph) : Prop :=
  ∀ {id : NodeId} {node : Node}, nodes.get id = .ok node → nodes'.get id = .ok node

theorem keeps_add (nodes : SyntaxGraph) (node : Node) : nodes.Keeps (nodes.add node).2 := by
  intro id node' hget
  have hlt : id < nodes.nodes.size := lt_size_of_get hget
  rw [get] at hget ⊢
  rw [add, Array.getElem?_push, if_neg (Nat.ne_of_lt hlt)]
  exact hget

theorem get_add (nodes : SyntaxGraph) (node : Node) :
    (nodes.add node).2.get (nodes.add node).1 = .ok node := by
  rw [get, add, size, Array.getElem?_push, if_pos rfl]

mutual

theorem Unfolds.keeps {nodes' : SyntaxGraph} (hkeeps : nodes.Keeps nodes') :
    ∀ {p : Pattern} {id : NodeId}, nodes.Unfolds id p → nodes'.Unfolds id p
  | .edge _ _ _, _, h => hkeeps h
  | .seq _, _, ⟨ids, hget, hall⟩ => ⟨ids, hkeeps hget, hall.keeps hkeeps⟩
  | .alt _, _, ⟨ids, hget, hall⟩ => ⟨ids, hkeeps hget, hall.keeps hkeeps⟩
  | .star _, _, ⟨child, hget, hchild⟩ => ⟨child, hkeeps hget, hchild.keeps hkeeps⟩
  | .plus _, _, ⟨child, hget, hchild⟩ => ⟨child, hkeeps hget, hchild.keeps hkeeps⟩
  | .optional _, _, ⟨child, hget, hchild⟩ => ⟨child, hkeeps hget, hchild.keeps hkeeps⟩
  | .power _ _, _, ⟨child, hget, hchild⟩ => ⟨child, hkeeps hget, hchild.keeps hkeeps⟩
  | .transpose _, _, ⟨child, hget, hchild⟩ => ⟨child, hkeeps hget, hchild.keeps hkeeps⟩

theorem UnfoldsAll.keeps {nodes' : SyntaxGraph} (hkeeps : nodes.Keeps nodes') :
    ∀ {ps : List Pattern} {ids : List NodeId}, nodes.UnfoldsAll ids ps → nodes'.UnfoldsAll ids ps
  | [], _, h => h
  | _ :: _, _, ⟨id, rest, heq, hp, hrest⟩ =>
    ⟨id, rest, heq, hp.keeps hkeeps, hrest.keeps hkeeps⟩

end

theorem unfolds_add {nodes nodes' : SyntaxGraph} {node : Node} {p : Pattern}
    (hkeeps : nodes.Keeps nodes')
    (h : ∀ {id : NodeId}, (nodes'.add node).2.get id = .ok node →
      nodes'.Keeps (nodes'.add node).2 → (nodes'.add node).2.Unfolds id p) :
    nodes.Keeps (nodes'.add node).2 ∧ (nodes'.add node).2.Unfolds (nodes'.add node).1 p :=
  ⟨fun hget => keeps_add nodes' node (hkeeps hget), h (get_add nodes' node) (keeps_add nodes' node)⟩

mutual

theorem lower_spec : ∀ (p : Pattern) (nodes : SyntaxGraph), nodes.Keeps (nodes.lower p).2 ∧
    (nodes.lower p).2.Unfolds (nodes.lower p).1 p
  | .edge _ _ _, _ => unfolds_add (fun hget => hget) fun hget _ => hget
  | .seq parts, nodes =>
    have ⟨hkeeps, hall⟩ := lowerAll_spec parts nodes
    unfolds_add hkeeps fun hget hadd => ⟨_, hget, hall.keeps hadd⟩
  | .alt parts, nodes =>
    have ⟨hkeeps, hall⟩ := lowerAll_spec parts nodes
    unfolds_add hkeeps fun hget hadd => ⟨_, hget, hall.keeps hadd⟩
  | .star inner, nodes =>
    have ⟨hkeeps, hinner⟩ := lower_spec inner nodes
    unfolds_add hkeeps fun hget hadd => ⟨_, hget, hinner.keeps hadd⟩
  | .plus inner, nodes =>
    have ⟨hkeeps, hinner⟩ := lower_spec inner nodes
    unfolds_add hkeeps fun hget hadd => ⟨_, hget, hinner.keeps hadd⟩
  | .optional inner, nodes =>
    have ⟨hkeeps, hinner⟩ := lower_spec inner nodes
    unfolds_add hkeeps fun hget hadd => ⟨_, hget, hinner.keeps hadd⟩
  | .power inner _, nodes =>
    have ⟨hkeeps, hinner⟩ := lower_spec inner nodes
    unfolds_add hkeeps fun hget hadd => ⟨_, hget, hinner.keeps hadd⟩
  | .transpose inner, nodes =>
    have ⟨hkeeps, hinner⟩ := lower_spec inner nodes
    unfolds_add hkeeps fun hget hadd => ⟨_, hget, hinner.keeps hadd⟩

theorem lowerAll_spec : ∀ (ps : List Pattern) (nodes : SyntaxGraph),
    nodes.Keeps (nodes.lowerAll ps).2 ∧
      (nodes.lowerAll ps).2.UnfoldsAll (nodes.lowerAll ps).1 ps
  | [], _ => ⟨fun hget => hget, rfl⟩
  | p :: ps, nodes =>
    have ⟨hkeeps, hp⟩ := lower_spec p nodes
    have ⟨hkeeps', hps⟩ := lowerAll_spec ps (nodes.lower p).2
    ⟨fun hget => hkeeps' (hkeeps hget), _, _, rfl, hp.keeps hkeeps', hps⟩

end

theorem unfolds_lower (nodes : SyntaxGraph) (p : Pattern) :
    (nodes.lower p).2.Unfolds (nodes.lower p).1 p :=
  (lower_spec p nodes).2

end SyntaxGraph

end PathQuery

import PathQuery.Proofs.Automaton.Built
import PathQuery.Proofs.Evaluation.Compile
import PathQuery.Proofs.Path.Reachability

/-!
# Compiled automata are built

Conditions and fixed edges are not looked at before a path is searched for, so this is about all
path descriptions.

* `SyntaxGraph.DescribesPath`: below the node there are path descriptions only, down to steps and
  to automata that are given as such;
* `Eval.Makes`: an evaluation keeps the known values right, and its own value is right if it has
  one;
* `rule_makes`, `resultWithin_makes`: what is evaluated for a path description is a built
  automaton;
* `built_sound`: all built automata are sound, and those that are compiled are among them.
-/

namespace PathQuery

/-- The descriptions of which a path description is composed. -/
def Node.pathParts : Node → List NodeId
  | sequence parts => parts
  | alternative parts => parts
  | iterated inner _ => [inner]
  | optional inner => [inner]
  | exponentiated inner _ => [inner]
  | transposed inner => [inner]
  | _ => []

def Value.IsBuilt (v : Value) : Prop :=
  ∃ handle a, v = automaton handle a ∧ a.Built

/-- A path description, or an automaton that was built before. -/
def Node.DescribesPath (node : Node) : Prop :=
  node.isPathDescription = true ∨ ∃ v, node = literal v ∧ v.IsBuilt

namespace SyntaxGraph

def HasPart (nodes : SyntaxGraph) (n part : NodeId) : Prop :=
  ∃ node, nodes.get n = .ok node ∧ part ∈ node.pathParts

def DescribesPath (nodes : SyntaxGraph) (root : NodeId) : Prop :=
  ∀ n node, Relation.ReflTransGen nodes.HasPart root n → nodes.get n = .ok node →
    node.DescribesPath

theorem DescribesPath.part {nodes : SyntaxGraph} {n part : NodeId} {node : Node}
    (h : nodes.DescribesPath n) (hget : nodes.get n = .ok node) (hpart : part ∈ node.pathParts) :
    nodes.DescribesPath part :=
  fun n node hbelow => h n node (.head ⟨_, hget, hpart⟩ hbelow)

theorem describesPath_of_closed {nodes : SyntaxGraph} {region : NodeId → Prop}
    (h : ∀ n node, region n → nodes.get n = .ok node →
      node.DescribesPath ∧ ∀ part ∈ node.pathParts, region part)
    {root : NodeId} (hroot : region root) : nodes.DescribesPath root := by
  intro n node hbelow hget
  -- Going down from the root never leaves the region.
  have hn : region n := by
    clear hget
    induction hbelow with
    | refl => exact hroot
    | tail _ hpart ih =>
      rcases hpart with ⟨node', hget', hmem⟩
      exact (h _ node' ih hget').2 _ hmem
  exact (h n node hn hget).1

end SyntaxGraph

/-- What is known of path descriptions are built automata. -/
def Cache.KnowsBuilt (nodes : SyntaxGraph) (cache : Cache) : Prop :=
  ∀ n v, nodes.DescribesPath n → cache.memo n = .done v → v.IsBuilt

namespace Cache.KnowsBuilt

variable {nodes : SyntaxGraph} {cache : Cache}

/-- An entry that is changed, and not to a value or to a right one. -/
theorem change {cache' : Cache} {id : NodeId} {memo : Memo} (h : cache.KnowsBuilt nodes)
    (hmemo : ∀ n, cache'.memo n = if n = id then memo else cache.memo n)
    (hvalue : ∀ v, memo = .done v → v.IsBuilt) : cache'.KnowsBuilt nodes := by
  intro n v hn hdone
  rw [hmemo] at hdone
  by_cases heq : n = id
  · rw [if_pos heq] at hdone
    exact hvalue v hdone
  · rw [if_neg heq] at hdone
    exact h n v hn hdone

theorem extend (h : cache.KnowsBuilt nodes) (id : NodeId) : (cache.extend id).KnowsBuilt nodes := by
  intro n v hn hdone
  rw [cache.memo_extend] at hdone
  exact h n v hn hdone

end Cache.KnowsBuilt

namespace Eval

/-- Nothing is said about evaluations that fail. -/
def Makes {α : Type} (nodes : SyntaxGraph) (x : Eval α) (right : α → Prop) : Prop :=
  ∀ w, w.cache.KnowsBuilt nodes →
    x.Ensures w (fun r w' => w'.cache.KnowsBuilt nodes ∧ right r) fun _ _ => True

namespace Makes

variable {α γ : Type} {nodes : SyntaxGraph} {right : α → Prop} {right' : γ → Prop}

theorem pure {r : α} (h : right r) : Makes nodes (Pure.pure r) right :=
  fun _ hw => Ensures.pure ⟨hw, h⟩

theorem bind {x : Eval α} {f : α → Eval γ} (hx : Makes nodes x right)
    (hf : ∀ r, right r → Makes nodes (f r) right') : Makes nodes (x >>= f) right' :=
  fun w hw => (hx w hw).bind fun r w' hr => hf r hr.2 w' hr.1

theorem fail (e : EvalError) : Makes nodes (Eval.fail e) right :=
  fun _ _ => Ensures.fail trivial

theorem fresh {x : Fresh α} (h : ∀ n, right (x n).1) : Makes nodes (Eval.fresh x) right :=
  fun _ hw => Ensures.fresh ⟨hw, h _⟩

theorem foldlM {f : α → γ → Eval α} {xs : List γ}
    (hf : ∀ x ∈ xs, ∀ r, right r → Makes nodes (f r x) right) {r : α} (hr : right r) :
    Makes nodes (xs.foldlM f r) right :=
  fun _ hw => Ensures.foldlM (fun _ r w' => w'.cache.KnowsBuilt nodes ∧ right r) []
    (fun x hx _ r w' hr => hf x hx r hr.2 w' hr.1) ⟨hw, hr⟩

end Makes

end Eval

namespace Evaluation

open Eval

section Rules

variable {nodes : SyntaxGraph} {result : NodeId → Eval Value} {part : NodeId}

theorem automatonOf_makes (h : Makes nodes (result part) Value.IsBuilt) :
    Makes nodes (automatonOf result part) Automaton.Built := by
  refine h.bind ?_
  rintro _ ⟨handle, a, rfl, ha⟩
  exact .pure ha

theorem fragment_makes (h : Makes nodes (result part) Value.IsBuilt) :
    Makes nodes (fragment result part) Automaton.Built :=
  (automatonOf_makes h).bind fun _ ha => .fresh fun n => ha.copy true n

theorem publishAutomaton_makes {x : Eval Automaton} (hx : Makes nodes x Automaton.Built) :
    Makes nodes (publishAutomaton x) Value.IsBuilt := by
  refine hx.bind ?_
  intro a ha w hw
  exact Ensures.freshHandle_bind (Ensures.pure ⟨hw, _, a, rfl, ha⟩)

variable {parts : List NodeId} (h : ∀ part ∈ parts, Makes nodes (result part) Value.IsBuilt)

include h

theorem compileSequence_makes : Makes nodes (compileSequence result parts) Automaton.Built := by
  refine (Makes.fresh fun n => Automaton.Built.epsilon n).bind ?_
  intro empty hempty
  cases parts with
  | nil => exact .pure hempty
  | cons first rest =>
    refine (fragment_makes (h first List.mem_cons_self)).bind ?_
    intro a ha
    refine .foldlM ?_ ha
    intro part hpart a ha
    refine (fragment_makes (h part (List.mem_cons_of_mem first hpart))).bind ?_
    intro b hb
    exact .pure (ha.concat hb)

theorem compileAlternative_makes (id : NodeId) :
    Makes nodes (compileAlternative result id parts) Automaton.Built := by
  cases parts with
  | nil => exact .fail _
  | cons first rest =>
    refine (fragment_makes (h first List.mem_cons_self)).bind ?_
    intro a ha
    refine .foldlM ?_ ha
    intro part hpart a ha
    refine (fragment_makes (h part (List.mem_cons_of_mem first hpart))).bind ?_
    intro b hb
    exact .fresh fun n => .union n ha hb

omit h

theorem compilePower_makes (h : Makes nodes (result part) Value.IsBuilt) (id : NodeId)
    (count : Nat) : Makes nodes (compilePower result id part count) Automaton.Built := by
  rw [compilePower]
  split
  · exact .fail _
  · exact (automatonOf_makes h).bind fun _ ha => .fresh fun n => .power count n ha

theorem rule_makes {scope : Scope} {id : NodeId} {node : Node} (hnode : node.DescribesPath)
    (h : ∀ part ∈ node.pathParts, Makes nodes (result part) Value.IsBuilt) :
    Makes nodes (rule scope result id node) Value.IsBuilt := by
  rcases hnode with hnode | ⟨v, rfl, hv⟩
  · cases node with
    | simplePath => exact publishAutomaton_makes (.fresh fun n => .single _ n)
    | edgePath => exact publishAutomaton_makes (.fresh fun n => .single _ n)
    | sequence parts => exact publishAutomaton_makes (compileSequence_makes h)
    | alternative parts => exact publishAutomaton_makes (compileAlternative_makes h id)
    | iterated inner iteration =>
      have hinner := fragment_makes (h inner (List.mem_singleton_self inner))
      cases iteration with
      | star => exact publishAutomaton_makes (hinner.bind fun _ ha => .fresh fun n => .star n ha)
      | plus => exact publishAutomaton_makes (hinner.bind fun _ ha => .fresh fun n => .plus n ha)
    | optional inner =>
      have hinner := fragment_makes (h inner (List.mem_singleton_self inner))
      exact publishAutomaton_makes (hinner.bind fun _ ha => .fresh fun n => .optional n ha)
    | exponentiated inner count =>
      exact publishAutomaton_makes
        (compilePower_makes (h inner (List.mem_singleton_self inner)) id count)
    | transposed inner =>
      have hinner := automatonOf_makes (h inner (List.mem_singleton_self inner))
      exact publishAutomaton_makes (hinner.bind fun _ ha => .fresh fun n => .reverse n ha)
    | _ => exact absurd hnode Bool.false_ne_true
  · exact .pure hv

end Rules

/-! ## Behind the cache -/

variable {scope : Scope}

theorem compute_makes {result : NodeId → Eval Value} {id : NodeId} {node : Node}
    (hrule : Makes scope.nodes (rule scope result id node) Value.IsBuilt) :
    Makes scope.nodes (compute scope result id node) Value.IsBuilt := by
  intro w hw
  refine Ensures.outcome_bind ((hrule w hw).mono ?_ ?_)
  · rintro v w' ⟨hw', hv⟩
    refine Ensures.modifyCache_bind (Ensures.pure ⟨?_, hv⟩)
    refine hw'.change (w'.cache.memo_finish id v) ?_
    rintro _ ⟨⟩
    exact hv
  · intro failure w' _
    cases failure with
    | error e => exact trivial
    | _ => exact trivial

theorem resultWithin_makes (depth : Nat) {id : NodeId} (hid : scope.nodes.DescribesPath id) :
    Makes scope.nodes (resultWithin scope depth id) Value.IsBuilt := by
  induction depth generalizing id with
  | zero => exact fun _ _ => trivial
  | succ depth ih =>
    intro w hw
    refine Ensures.ofExcept_bind ?_ fun _ _ => trivial
    intro node hget
    refine Ensures.modifyGet_bind ?_
    unfold Cache.begin
    -- A known value is right by the invariant; an unknown one is computed from right values.
    cases hmemo : w.cache.memo id with
    | done v => exact Ensures.pure ⟨hw.extend id, hw id v hid hmemo⟩
    | inProgress => exact trivial
    | uninitialized =>
      have hrule : Makes scope.nodes (rule scope (resultWithin scope depth) id node)
          Value.IsBuilt :=
        rule_makes (hid id node .refl hget) fun part hpart => ih (hid.part hget hpart)
      exact compute_makes hrule _ (hw.change (w.cache.memo_start id) nofun)

/-! ## Automata by themselves -/

theorem built_of_compilePathDescription {g : Graph} {nodes : SyntaxGraph} {id : NodeId}
    {supply supply' : Supply} {a : Automaton} (hid : nodes.DescribesPath id)
    (h : compilePathDescription g nodes id supply = (.ok a, supply')) : a.Built := by
  let scope : Scope := { graph := g, nodes }
  have hempty : ({} : Cache).KnowsBuilt nodes := by
    intro n v _ hdone
    rw [Cache.memo_empty] at hdone
    cases hdone
  have hresult : Makes scope.nodes (result scope id) Value.IsBuilt :=
    resultWithin_makes _ hid
  have hensures := automatonOf_makes hresult { supply } hempty
  rcases compilePathDescription_eq_ok h with ⟨_, w, hrun⟩
  unfold Ensures at hensures
  rw [hrun] at hensures
  exact hensures.2

theorem built_sound :
    (∀ a : Automaton, a.Built → a.Sound) ∧
      ∀ (g : Graph) (nodes : SyntaxGraph) (id : NodeId) (supply supply' : Supply) (a : Automaton),
        nodes.DescribesPath id → compilePathDescription g nodes id supply = (.ok a, supply') →
          a.Built ∧ a.Sound := by
  refine ⟨fun a ha => ha.sound, ?_⟩
  intro g nodes id supply supply' a hid hcompile
  have ha := built_of_compilePathDescription hid hcompile
  exact ⟨ha, ha.sound⟩

/-- Against roads with a condition, or along one edge in either direction; the conditioned step is
shared. -/
def guardedTrips : SyntaxGraph where
  nodes := #[some (.literal (.bool true)), some (.literal (.edge ⟨0, true⟩)),
    some (.simplePath .outgoing [⟨"road", false⟩] [] (some ⟨0, some "road"⟩)),
    some (.edgePath .any 1 [] [] none), some (.alternative [2, 3, 2]), some (.iterated 4 .plus),
    some (.transposed 5)]

theorem guardedTrips_describesPath : guardedTrips.DescribesPath 6 := by
  have hclosed : ∀ n node, 2 ≤ n → guardedTrips.get n = .ok node →
      node.DescribesPath ∧ ∀ part ∈ node.pathParts, 2 ≤ part := by
    intro n node hn hget
    match n, hn with
    | 2, _ | 3, _ | 4, _ | 5, _ | 6, _ =>
      cases hget
      exact ⟨.inl rfl, by decide⟩
    | _ + 7, _ => cases hget
  exact SyntaxGraph.describesPath_of_closed hclosed (Nat.le_add_left 2 4)

theorem built_sound_guardedTrips :
    (guardedRoads.union (Automaton.epsilon 7).1 8).1.dedupTransitions.2.Sound ∧
      ∃ a supply', compilePathDescription towns guardedTrips 6 {} = (.ok a, supply') ∧
        a.Built ∧ a.Sound := by
  have hroads : guardedRoads.Built := .star 0 (.single _ 0)
  have hcompiles : (compilePathDescription towns guardedTrips 6 {}).1.isOk = true := by
    decide +kernel
  refine ⟨built_sound.1 _ (.dedupTransitions (.union 8 hroads (.epsilon 7))), ?_⟩
  rcases hcompile : compilePathDescription towns guardedTrips 6 {} with ⟨_ | a, supply'⟩
  · rw [hcompile] at hcompiles
    cases hcompiles
  · exact ⟨a, supply', rfl, built_sound.2 _ _ _ _ _ a guardedTrips_describesPath hcompile⟩

end Evaluation
end PathQuery

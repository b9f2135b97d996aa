import PathQuery.Evaluation.Evaluator
import PathQuery.Proofs.Automaton.Recognizes
import PathQuery.Proofs.Evaluation.Cache
import PathQuery.Proofs.Evaluation.Ensures
import PathQuery.Proofs.Syntax.Unfold

/-!
# Compiled path descriptions

A node of a description without guards and fixed edges compiles to an automaton that recognizes the
language of the pattern that the node stands for, however nodes are shared.

* `Implements`, `Describes`: automata and values that are right for a node;
* `Computes`: what is asked of the evaluation of a node;
* `rule_computes`: a rule computes its node if the children are computed;
* `Consistent`: every known value is right, and which nodes are being computed;
* `resultWithin_ensures`: the cache keeps to this, and an evaluation that is deep enough succeeds;
* `compilePathDescription_sound`, `compilePathDescription_complete`: automata by themselves.
-/

namespace PathQuery
namespace Evaluation

variable {g : Graph} {nodes : SyntaxGraph}

def Implements (g : Graph) (nodes : SyntaxGraph) (id : NodeId) (a : Automaton) : Prop :=
  ∃ p, nodes.Unfolds id p ∧ p.Admissible ∧ a.Recognizes g (p.language g)

def Describes (g : Graph) (nodes : SyntaxGraph) (id : NodeId) (value : Value) : Prop :=
  ∃ handle a, value = .automaton handle a ∧ Implements g nodes id a

/-! ## Rules -/

section Rules

variable {result : NodeId → Eval Value} {inv : Cache → Prop} {fails : NodeId → Prop}

/-- An evaluation computes a node if it keeps to the invariant and gives a value that is right, or
else has an excuse. -/
def Computes (g : Graph) (nodes : SyntaxGraph) (inv : Cache → Prop) (x : Eval Value) (id : NodeId)
    (excuse : Prop) : Prop :=
  ∀ w, inv w.cache →
    x.Ensures w (fun value w' => inv w'.cache ∧ Describes g nodes id value) fun _ _ => excuse

theorem automatonOf_ensures {id : NodeId} {excuse : Prop}
    (h : Computes g nodes inv (result id) id excuse) {w : Workspace} (hw : inv w.cache) :
    (automatonOf result id).Ensures w (fun a w' => inv w'.cache ∧ Implements g nodes id a)
      fun _ _ => excuse := by
  refine (h w hw).bind ?_
  rintro _ w' ⟨hinv, handle, a, rfl, ha⟩
  exact Eval.Ensures.pure ⟨hinv, ha⟩

theorem fragment_ensures {id : NodeId} {excuse : Prop}
    (h : Computes g nodes inv (result id) id excuse) {w : Workspace} (hw : inv w.cache) :
    (fragment result id).Ensures w (fun a w' => inv w'.cache ∧ Implements g nodes id a)
      fun _ _ => excuse := by
  refine (automatonOf_ensures h hw).bind ?_
  rintro a w' ⟨hinv, p, hp, hadmissible, ha⟩
  exact Eval.Ensures.fresh ⟨hinv, p, hp, hadmissible, ha.copy true _⟩

theorem publishAutomaton_computes {id : NodeId} {x : Eval Automaton} {excuse : Prop}
    (h : ∀ w, inv w.cache → x.Ensures w (fun a w' => inv w'.cache ∧ Implements g nodes id a)
      fun _ _ => excuse) :
    Computes g nodes inv (publishAutomaton x) id excuse := by
  intro w hw
  refine (h w hw).bind ?_
  rintro a w' ⟨hinv, ha⟩
  exact Eval.Ensures.freshHandle_bind (Eval.Ensures.pure ⟨hinv, _, a, rfl, ha⟩)

/-- Parts that are joined from the left. -/
theorem foldParts_ensures (combine : Automaton → Automaton → Eval Automaton)
    (join : List Pattern → Language Incidence) (hsingle : ∀ p, join [p] = p.language g)
    (hcombine : ∀ (a b : Automaton) ps p w, a.Recognizes g (join ps) →
      b.Recognizes g (p.language g) → (combine a b).Ensures w
        (fun c w' => w'.cache = w.cache ∧ c.Recognizes g (join (ps ++ [p]))) fun _ _ => False)
    {first : NodeId} {rest : List NodeId}
    (h : ∀ id ∈ first :: rest, Computes g nodes inv (result id) id (fails id))
    {w : Workspace} (hw : inv w.cache) :
    (fragment result first >>= fun a => rest.foldlM (fun a part => do
      let b ← fragment result part
      combine a b) a).Ensures w
        (fun a w' => inv w'.cache ∧ ∃ ps, nodes.UnfoldsAll (first :: rest) ps ∧
          Pattern.AllAdmissible ps ∧ a.Recognizes g (join ps))
        fun _ _ => ∃ id ∈ first :: rest, fails id := by
  refine Eval.Ensures.bind ((fragment_ensures (h first List.mem_cons_self) hw).mono
    (fun _ _ hpost => hpost) fun _ _ hfails => ⟨first, List.mem_cons_self, hfails⟩) ?_
  rintro a w ⟨hinv, p, hp, hadmissible, ha⟩
  refine Eval.Ensures.foldlM (fun seen (a : Automaton) w' => inv w'.cache ∧
    ∃ ps, nodes.UnfoldsAll seen ps ∧ Pattern.AllAdmissible ps ∧ a.Recognizes g (join ps))
    [first] ?_ ?_
  · rintro part hpart seen a w ⟨hinv, ps, hps, hall, ha⟩
    have hmem : part ∈ first :: rest := List.mem_cons_of_mem first hpart
    refine Eval.Ensures.bind ((fragment_ensures (h part hmem) hinv).mono
      (fun _ _ hpost => hpost) fun _ _ hfails => ⟨part, hmem, hfails⟩) ?_
    rintro b w ⟨hinv, p, hp, hadmissible, hb⟩
    refine (hcombine a b ps p w ha hb).mono ?_ fun _ _ hfalse => hfalse.elim
    rintro c w' ⟨hcache, hc⟩
    rw [hcache]
    exact ⟨hinv, ps ++ [p], SyntaxGraph.unfoldsAll_append hps hp,
      Pattern.allAdmissible_append hall hadmissible, hc⟩
  · refine ⟨hinv, [p], ⟨first, [], rfl, hp, rfl⟩, ⟨hadmissible, trivial⟩, ?_⟩
    rwa [hsingle]

theorem compileSequence_ensures {id : NodeId} {parts : List NodeId}
    (hget : nodes.get id = .ok (.sequence parts))
    (h : ∀ part ∈ parts, Computes g nodes inv (result part) part (fails part))
    {w : Workspace} (hw : inv w.cache) :
    (compileSequence result parts).Ensures w (fun a w' => inv w'.cache ∧ Implements g nodes id a)
      fun _ _ => ∃ part ∈ parts, fails part := by
  refine Eval.Ensures.fresh_bind ?_
  cases parts with
  | nil =>
    exact Eval.Ensures.pure ⟨hw, .seq [], ⟨[], hget, rfl⟩, trivial,
      Automaton.recognizes_epsilon _⟩
  | cons first rest =>
    refine (foldParts_ensures (fun a b => pure (a.concat b)) (Pattern.concatenated g) ?_ ?_ h
      ?_).mono ?_ fun _ _ hfails => hfails
    · intro p
      rw [Pattern.concatenated, Pattern.concatenated, mul_one]
    · intro a b ps p w ha hb
      refine Eval.Ensures.pure (r := a.concat b) ⟨rfl, ?_⟩
      rw [Pattern.concatenated_append]
      exact ha.concat hb
    · exact hw
    · rintro a w ⟨hinv, ps, hps, hall, ha⟩
      exact ⟨hinv, .seq ps, ⟨first :: rest, hget, hps⟩, hall, ha⟩

theorem compileAlternative_ensures {id : NodeId} {parts : List NodeId}
    (hget : nodes.get id = .ok (.alternative parts))
    (h : ∀ part ∈ parts, Computes g nodes inv (result part) part (fails part))
    {w : Workspace} (hw : inv w.cache) :
    (compileAlternative result id parts).Ensures w
      (fun a w' => inv w'.cache ∧ Implements g nodes id a)
      fun _ _ => (∃ part ∈ parts, fails part) ∨ parts = [] := by
  cases parts with
  | nil =>
    exact Eval.Ensures.fail (.inr rfl)
  | cons first rest =>
    refine (foldParts_ensures (fun a b => Eval.fresh (a.union b)) (Pattern.joined g) ?_ ?_ h
      hw).mono ?_ fun _ _ hfails => .inl hfails
    · intro p
      rw [Pattern.joined, Pattern.joined, add_zero]
    · intro a b ps p w ha hb
      refine Eval.Ensures.fresh ⟨rfl, ?_⟩
      rw [Pattern.joined_append]
      exact ha.union hb _
    · rintro a w ⟨hinv, ps, hps, hall, ha⟩
      refine ⟨hinv, .alt ps, ⟨first :: rest, hget, hps⟩, ⟨?_, hall⟩, ha⟩
      rintro rfl
      exact absurd hps (List.cons_ne_nil first rest)

/-- A rule that does one thing to the automaton of its only child. -/
theorem unary_ensures {x : Eval Automaton} {id child : NodeId} {excuse : Prop} {w : Workspace}
    {f : Automaton → Fresh Automaton}
    (hx : x.Ensures w (fun a w' => inv w'.cache ∧ Implements g nodes child a) fun _ _ => excuse)
    (hf : ∀ (a : Automaton) p n, nodes.Unfolds child p → p.Admissible →
      a.Recognizes g (p.language g) → Implements g nodes id (f a n).1) :
    (x >>= fun a => Eval.fresh (f a)).Ensures w
      (fun a w' => inv w'.cache ∧ Implements g nodes id a) fun _ _ => excuse := by
  refine hx.bind ?_
  rintro a w ⟨hinv, p, hp, hadmissible, ha⟩
  exact Eval.Ensures.fresh ⟨hinv, hf a p _ hp hadmissible ha⟩

theorem rule_computes {scope : Scope} {id : NodeId} {node : Node}
    (hget : scope.nodes.get id = .ok node) (hunguarded : node.IsUnguarded)
    (h : ∀ child ∈ node.children,
      Computes scope.graph scope.nodes inv (result child) child (fails child)) :
    Computes scope.graph scope.nodes inv (rule scope result id node) id
      ((∃ child ∈ node.children, fails child) ∨ ¬ node.IsCompilable) := by
  have hchild : ∀ child ∈ node.children, ∀ failure : Failure, ∀ w : Workspace, fails child →
      (∃ child ∈ node.children, fails child) ∨ ¬ node.IsCompilable :=
    fun child hmem _ _ hfails => .inl ⟨child, hmem, hfails⟩
  cases node with
  | simplePath direction types roles guard =>
    obtain rfl : guard = none := hunguarded
    refine publishAutomaton_computes ?_
    intro w hw
    exact Eval.Ensures.fresh ⟨hw, .edge direction types roles, hget, trivial,
      Automaton.recognizes_single rfl _⟩
  | sequence parts =>
    refine publishAutomaton_computes ?_
    intro w hw
    exact (compileSequence_ensures hget h hw).mono (fun _ _ hpost => hpost)
      fun _ _ hfails => .inl hfails
  | alternative parts =>
    refine publishAutomaton_computes ?_
    intro w hw
    exact (compileAlternative_ensures hget h hw).mono (fun _ _ hpost => hpost)
      fun _ _ hfails => hfails.imp_right fun hempty hcompilable => hcompilable hempty
  | iterated inner iteration =>
    have hmem : inner ∈ (Node.iterated inner iteration).children := List.mem_singleton_self inner
    cases iteration with
    | star =>
      refine publishAutomaton_computes ?_
      intro w hw
      refine unary_ensures ((fragment_ensures (h inner hmem) hw).mono (fun _ _ hpost => hpost)
        (hchild inner hmem)) ?_
      intro a p n hp hadmissible ha
      exact ⟨.star p, ⟨inner, hget, hp⟩, hadmissible, ha.star n⟩
    | plus =>
      refine publishAutomaton_computes ?_
      intro w hw
      refine unary_ensures ((fragment_ensures (h inner hmem) hw).mono (fun _ _ hpost => hpost)
        (hchild inner hmem)) ?_
      intro a p n hp hadmissible ha
      exact ⟨.plus p, ⟨inner, hget, hp⟩, hadmissible, ha.plus n⟩
  | optional inner =>
    have hmem : inner ∈ (Node.optional inner).children := List.mem_singleton_self inner
    refine publishAutomaton_computes ?_
    intro w hw
    refine unary_ensures ((fragment_ensures (h inner hmem) hw).mono (fun _ _ hpost => hpost)
      (hchild inner hmem)) ?_
    intro a p n hp hadmissible ha
    exact ⟨.optional p, ⟨inner, hget, hp⟩, hadmissible, ha.optional n⟩
  | exponentiated inner count =>
    have hmem : inner ∈ (Node.exponentiated inner count).children := List.mem_singleton_self inner
    refine publishAutomaton_computes ?_
    intro w hw
    rw [compilePower]
    split
    · rename_i hlarge
      exact Eval.Ensures.fail (.inr (Nat.not_le_of_lt hlarge))
    · rename_i hsmall
      refine unary_ensures ((automatonOf_ensures (h inner hmem) hw).mono (fun _ _ hpost => hpost)
        (hchild inner hmem)) ?_
      intro a p n hp hadmissible ha
      exact ⟨.power p count, ⟨inner, hget, hp⟩, ⟨Nat.le_of_not_lt hsmall, hadmissible⟩,
        ha.power count n⟩
  | transposed inner =>
    have hmem : inner ∈ (Node.transposed inner).children := List.mem_singleton_self inner
    refine publishAutomaton_computes ?_
    intro w hw
    refine unary_ensures ((automatonOf_ensures (h inner hmem) hw).mono (fun _ _ hpost => hpost)
      (hchild inner hmem)) ?_
    intro a p n hp hadmissible ha
    exact ⟨.transpose p, ⟨inner, hget, hp⟩, hadmissible, ha.reverse n⟩
  | _ => exact absurd hunguarded (by simp [Node.IsUnguarded])

end Rules

/-! ## Behind the cache -/

/-- Known values in the region are right, and exactly the busy nodes are being computed. -/
structure Consistent (g : Graph) (nodes : SyntaxGraph) (region busy : NodeId → Prop)
    (cache : Cache) : Prop where
  describes {n : NodeId} {value : Value} : region n → cache.memo n = .done value →
    Describes g nodes n value
  inProgress_iff {n : NodeId} : cache.memo n = .inProgress ↔ busy n

namespace Consistent

variable {region busy : NodeId → Prop} {cache : Cache}

theorem extend (h : Consistent g nodes region busy cache) (id : NodeId) :
    Consistent g nodes region busy (cache.extend id) where
  describes hn hmemo := h.describes hn ((cache.memo_extend id _).symm.trans hmemo)
  inProgress_iff {n} := by rw [cache.memo_extend, h.inProgress_iff]

theorem start (h : Consistent g nodes region busy cache) (id : NodeId) :
    Consistent g nodes region (fun n => n = id ∨ busy n) (cache.start id) where
  describes {n value} hn hmemo := by
    rw [cache.memo_start] at hmemo
    by_cases heq : n = id
    · rw [if_pos heq] at hmemo
      exact Memo.noConfusion hmemo
    · rw [if_neg heq] at hmemo
      exact h.describes hn hmemo
  inProgress_iff {n} := by
    rw [cache.memo_start, ← h.inProgress_iff]
    by_cases heq : n = id
    · simp [heq]
    · simp [heq]

/-- What the cache answers: a value that is right, that the node is busy, or that it is now. -/
theorem ofBegin (h : Consistent g nodes region busy cache) {id : NodeId} (hid : region id) :
    (∃ value, (cache.begin id).1 = .ok (some value) ∧ Describes g nodes id value ∧
        Consistent g nodes region busy (cache.begin id).2) ∨
      (∃ e, (cache.begin id).1 = .error e ∧ busy id) ∨
      ((cache.begin id).1 = .ok none ∧ ¬ busy id ∧
        Consistent g nodes region (fun n => n = id ∨ busy n) (cache.begin id).2) := by
  unfold Cache.begin
  cases hmemo : cache.memo id with
  | done value =>
    exact .inl ⟨value, rfl, h.describes hid hmemo, h.extend id⟩
  | inProgress =>
    exact .inr (.inl ⟨_, rfl, h.inProgress_iff.1 hmemo⟩)
  | uninitialized =>
    refine .inr (.inr ⟨rfl, ?_, h.start id⟩)
    intro hbusy
    rw [h.inProgress_iff.2 hbusy] at hmemo
    exact Memo.noConfusion hmemo

theorem finish {id : NodeId} {value : Value}
    (h : Consistent g nodes region (fun n => n = id ∨ busy n) cache) (hbusy : ¬ busy id)
    (hvalue : Describes g nodes id value) :
    Consistent g nodes region busy (cache.finish id value) where
  describes {n value'} hn hmemo := by
    rw [cache.memo_finish] at hmemo
    by_cases heq : n = id
    · rw [if_pos heq] at hmemo
      cases hmemo
      exact heq ▸ hvalue
    · rw [if_neg heq] at hmemo
      exact h.describes hn hmemo
  inProgress_iff {n} := by
    rw [cache.memo_finish]
    by_cases heq : n = id
    · subst heq
      simp [hbusy]
    · rw [if_neg heq, h.inProgress_iff]
      simp [heq]

end Consistent

/-- The node stands for a pattern within the depth, and nothing as low as it is being computed. -/
def IsReady (nodes : SyntaxGraph) (busy : NodeId → Prop) (depth : Nat) (id : NodeId) : Prop :=
  ∃ p, nodes.Unfolds id p ∧ p.Admissible ∧ p.height ≤ depth ∧
    ∀ n q, nodes.Unfolds n q → q.height ≤ p.height → ¬ busy n

theorem IsReady.not_busy {busy : NodeId → Prop} {depth : Nat} {id : NodeId}
    (h : IsReady nodes busy depth id) : ¬ busy id := by
  rcases h with ⟨p, hp, _, _, hfree⟩
  exact hfree id p hp (Nat.le_refl _)

theorem IsReady.isCompilable {busy : NodeId → Prop} {depth : Nat} {id : NodeId} {node : Node}
    (h : IsReady nodes busy depth id) (hget : nodes.get id = .ok node) : node.IsCompilable := by
  rcases h with ⟨p, hp, hadmissible, _, _⟩
  exact SyntaxGraph.isCompilable_of_unfolds hp hadmissible hget

theorem IsReady.child {busy : NodeId → Prop} {depth : Nat} {id child : NodeId} {node : Node}
    (h : IsReady nodes busy (depth + 1) id) (hget : nodes.get id = .ok node)
    (hchild : child ∈ node.children) :
    IsReady nodes (fun n => n = id ∨ busy n) depth child := by
  rcases h with ⟨p, hp, hadmissible, hdepth, hfree⟩
  rcases SyntaxGraph.unfolds_child hp hget hchild with ⟨q, hq, hheight, hkeeps⟩
  refine ⟨q, hq, hkeeps hadmissible, by omega, ?_⟩
  rintro n r hr hle (rfl | hbusy)
  · -- The node itself stands for nothing as low as its child.
    rw [SyntaxGraph.unfolds_unique hr hp] at hle
    omega
  · exact hfree n r hr (by omega) hbusy

variable {scope : Scope} {region : NodeId → Prop}

theorem compute_ensures {result : NodeId → Eval Value} {busy : NodeId → Prop} {id : NodeId}
    {node : Node} {excuse : Prop} (hbusy : ¬ busy id) {w : Workspace}
    (hrule : (rule scope result id node).Ensures w (fun value w' =>
      Consistent scope.graph scope.nodes region (fun n => n = id ∨ busy n) w'.cache ∧
        Describes scope.graph scope.nodes id value) fun _ _ => excuse) :
    (compute scope result id node).Ensures w (fun value w' =>
      Consistent scope.graph scope.nodes region busy w'.cache ∧
        Describes scope.graph scope.nodes id value) fun _ _ => excuse := by
  refine Eval.Ensures.outcome_bind (hrule.mono ?_ ?_)
  · rintro value w' ⟨hconsistent, hvalue⟩
    exact Eval.Ensures.modifyCache_bind
      (Eval.Ensures.pure ⟨hconsistent.finish hbusy hvalue, hvalue⟩)
  · intro failure _ hexcuse
    cases failure with
    | error e => exact hexcuse
    | _ => exact hexcuse

theorem resultWithin_computes
    (hregion : ∀ {n node}, region n → scope.nodes.get n = .ok node →
      node.IsUnguarded ∧ ∀ child ∈ node.children, region child)
    (depth : Nat) (busy : NodeId → Prop) {id : NodeId} (hid : region id) :
    Computes scope.graph scope.nodes (Consistent scope.graph scope.nodes region busy)
      (resultWithin scope depth id) id (¬ IsReady scope.nodes busy depth id) := by
  induction depth generalizing busy id with
  | zero =>
    rintro w _ ⟨p, _, _, hheight, _⟩
    exact absurd p.height_pos (Nat.not_lt_of_le hheight)
  | succ depth ih =>
    intro w hw
    refine Eval.Ensures.ofExcept_bind ?_ ?_
    · intro node hget
      refine Eval.Ensures.modifyGet_bind ?_
      rcases hw.ofBegin hid with ⟨value, hknown, hvalue, hconsistent⟩ | ⟨e, hknown, hbusy⟩ |
        ⟨hknown, hbusy, hconsistent⟩
      · rw [hknown]
        exact Eval.Ensures.pure ⟨hconsistent, hvalue⟩
      · rw [hknown]
        exact Eval.Ensures.fail fun hready => hready.not_busy hbusy
      · rw [hknown]
        rcases hregion hid hget with ⟨hunguarded, hchildren⟩
        have hrule := rule_computes hget hunguarded fun child hchild =>
          ih (fun n => n = id ∨ busy n) (hchildren child hchild)
        refine compute_ensures hbusy ((hrule _ hconsistent).mono (fun _ _ hpost => hpost) ?_)
        rintro _ _ (⟨child, hchild, hfails⟩ | hcompilable) hready
        · exact hfails (hready.child hget hchild)
        · exact hcompilable (hready.isCompilable hget)
    · rintro e hget ⟨p, hp, _⟩
      rcases SyntaxGraph.exists_get hp with ⟨node, hget'⟩
      rw [hget] at hget'
      exact absurd hget' nofun

/-! ## Automata by themselves -/

theorem consistent_empty : Consistent g nodes region (fun _ => False) {} where
  describes _ hmemo := Memo.noConfusion hmemo
  inProgress_iff {n} := by
    rw [Cache.memo_empty]
    exact ⟨Memo.noConfusion, False.elim⟩

theorem automatonOf_result_ensures
    (hregion : ∀ {n node}, region n → scope.nodes.get n = .ok node →
      node.IsUnguarded ∧ ∀ child ∈ node.children, region child)
    {id : NodeId} (hid : region id) (supply : Supply) :
    (automatonOf (result scope) id).Ensures { supply }
      (fun a _ => Implements scope.graph scope.nodes id a)
      fun _ _ => ¬ IsReady scope.nodes (fun _ => False) (scope.nodes.size + 1) id :=
  (automatonOf_ensures (resultWithin_computes hregion _ _ hid) consistent_empty).mono
    (fun _ _ hpost => hpost.2) fun _ _ hfails => hfails

theorem Implements.validate_eq_none {id : NodeId} {a : Automaton} (h : Implements g nodes id a) :
    a.validate = none := by
  rcases h with ⟨p, _, _, ha⟩
  exact Automaton.validate_eq_none ha.wellFormed ha.accepting

/-- What is compiled was evaluated, and passes the check. -/
theorem compilePathDescription_eq_ok {id : NodeId} {supply supply' : Supply} {a : Automaton}
    (h : compilePathDescription g nodes id supply = (.ok a, supply')) :
    a.validate = none ∧
      ∃ w, automatonOf (result { graph := g, nodes }) id { supply } = (.ok a, w) := by
  simp only [compilePathDescription] at h
  rcases hrun : automatonOf (result { graph := g, nodes }) id { supply } with ⟨_ | b, w⟩
  · rw [hrun] at h
    exact absurd h (by simp)
  · rw [hrun] at h
    cases hvalidate : b.validate with
    | some fault => exact absurd h (by simp [hvalidate])
    | none =>
      simp only [hvalidate, Prod.mk.injEq, Except.ok.injEq] at h
      exact h.1 ▸ ⟨hvalidate, w, rfl⟩

/-- What is compiled from a description without guards and fixed edges is right. -/
theorem compilePathDescription_sound {id : NodeId} {supply supply' : Supply} {a : Automaton}
    (hplain : ∀ {n node}, Relation.ReflTransGen nodes.IsChild id n → nodes.get n = .ok node →
      node.IsUnguarded)
    (h : compilePathDescription g nodes id supply = (.ok a, supply')) :
    Implements g nodes id a := by
  let scope : Scope := { graph := g, nodes }
  have hregion : ∀ {n node}, Relation.ReflTransGen nodes.IsChild id n →
      scope.nodes.get n = .ok node → node.IsUnguarded ∧
        ∀ child ∈ node.children, Relation.ReflTransGen nodes.IsChild id child :=
    fun hn hget => ⟨hplain hn hget,
      fun child hchild => hn.tail ((SyntaxGraph.isChild_iff hget).2 hchild)⟩
  have hensures := automatonOf_result_ensures hregion .refl supply
  rcases compilePathDescription_eq_ok h with ⟨_, w, hrun⟩
  unfold Eval.Ensures at hensures
  rw [hrun] at hensures
  exact hensures

/-- A description that unfolds to an admissible pattern is compiled. -/
theorem compilePathDescription_complete {id : NodeId} {p : Pattern} (hp : nodes.Unfolds id p)
    (hadmissible : p.Admissible) (supply : Supply) :
    ∃ a supply', compilePathDescription g nodes id supply = (.ok a, supply') ∧
      a.Recognizes g (p.language g) := by
  let scope : Scope := { graph := g, nodes }
  have hregion : ∀ {n node}, (∃ q, nodes.Unfolds n q) → scope.nodes.get n = .ok node →
      node.IsUnguarded ∧ ∀ child ∈ node.children, ∃ q, nodes.Unfolds child q := by
    rintro n node ⟨q, hq⟩ hget
    refine ⟨SyntaxGraph.isUnguarded_of_unfolds hq hget, ?_⟩
    intro child hchild
    rcases SyntaxGraph.unfolds_child hq hget hchild with ⟨r, hr, _⟩
    exact ⟨r, hr⟩
  have hensures := automatonOf_result_ensures hregion ⟨p, hp⟩ supply
  have hready : IsReady nodes (fun _ => False) (nodes.size + 1) id :=
    ⟨p, hp, hadmissible, Nat.le_succ_of_le (SyntaxGraph.height_le_size hp),
      fun _ _ _ _ hfalse => hfalse⟩
  unfold Eval.Ensures at hensures
  simp only [compilePathDescription]
  rcases hrun : automatonOf (result scope) id { supply } with ⟨b | a, w⟩
  · rw [hrun] at hensures
    exact absurd hready hensures
  · rw [hrun] at hensures
    have hvalidate := hensures.validate_eq_none
    rcases hensures with ⟨q, hq, _, ha⟩
    obtain rfl := SyntaxGraph.unfolds_unique hp hq
    refine ⟨a, w.supply, ?_, ha⟩
    simp only [hvalidate]

end Evaluation
end PathQuery

import PathQuery.Proofs.Evaluation.Guards
import PathQuery.Proofs.Evaluation.Rules
import PathQuery.Proofs.Syntax.Confined

/-!
# Evaluation without a cache

* `uncached`: the value of a node, computed anew whenever it is asked for;
* `uncached_agrees`: it depends on nothing but the variables that the node mentions, and more depth
  changes nothing once it was enough;
* `uncached_busy`: nor does it matter which nodes are being computed, as long as none of them has a
  value at the depth in question.
-/

namespace PathQuery

/-- Nothing is left of the serials of what was made. -/
def Value.unnumbered (base : Nat) : Value → Value
  | automaton h a => if h < base then automaton h a else automaton h a.unnumbered
  | v => v

/-- Every handle has the node for which it stands when values are computed without a cache. -/
def Owners.standing (base : Nat) : Owners :=
  fun h => some (h - base)

namespace Value.Alike

variable {P : Symbol → Prop} {base : Nat} {o : Owners} {c : NodeId} {v v' : Value}

theorem unnumbered_right (h : Alike P base o c v v') : Alike P base o c v (v'.unnumbered base) := by
  cases h with
  | settled hv =>
    cases v with
    | automaton h a =>
      rw [Value.unnumbered, if_pos (hv.handle_lt rfl)]
      exact .settled hv
    | _ => exact .settled hv
  | automaton hle howner htwin =>
    rw [Value.unnumbered, if_neg (by lia)]
    exact .automaton hle howner htwin.unnumbered_right
  | pathSystem hle howner => exact .pathSystem hle howner

theorem unnumbered_self (h : Alike P base o c v v') :
    Alike P base (.standing base) c (v'.unnumbered base) (v'.unnumbered base) := by
  have howner : Owners.standing base (base + c) = some c := by
    rw [Owners.standing, Nat.add_sub_cancel_left]
  cases h with
  | settled hv =>
    cases v with
    | automaton h a =>
      rw [Value.unnumbered, if_pos (hv.handle_lt rfl)]
      exact .settled hv
    | _ => exact .settled hv
  | automaton _ _ htwin =>
    rw [Value.unnumbered, if_neg (by lia)]
    refine .automaton (Nat.le_add_right base c) howner (.refl fun ht => htwin.symbols ?_)
    rw [htwin.transitions]
    exact ht
  | pathSystem _ _ => exact .pathSystem (Nat.le_add_right base c) howner

theorem unnumbered_eq (h : Alike P base (.standing base) c v v') :
    v.unnumbered base = v'.unnumbered base := by
  cases h with
  | settled _ => rfl
  | automaton hle howner htwin =>
    have hc := Option.some.inj howner
    rw [Value.unnumbered, Value.unnumbered, if_neg (by lia), if_neg (by lia), htwin.unnumbered_eq]
    congr 1
    lia
  | pathSystem hle howner =>
    have hc := Option.some.inj howner
    simp only [Value.unnumbered]
    congr 1
    lia

end Value.Alike

namespace Evaluation

open Eval

/-- A workspace in which the next handle is the one that stands for the node. -/
def standingWorkspace (base : Nat) (id : NodeId) (β : Bindings) : Workspace :=
  { bindings := β, supply := { handles := base + id } }

/-- The rule of a node with given answers. -/
def answer (scope : Scope) (base : Nat) (ρ : Answering) (id : NodeId) (node : Node)
    (β : Bindings) : Except Failure Value :=
  (rule scope (answering ρ) id node (standingWorkspace base id β)).1.map (Value.unnumbered base)

/-- A node that depends on itself is noticed if the nodes that are being computed are given. -/
def uncached (scope : Scope) (base : Nat) : Nat → Option (List NodeId) → Answering
  | 0, _, _, _ => .error .exhausted
  | depth + 1, busy, id, β =>
    match scope.nodes.get id with
    | .error e => .error (.error e)
    | .ok node =>
      if id ∈ busy.getD [] then .error (.error (.cyclicEvaluation id))
      else answer scope base (uncached scope base depth (busy.map (id :: ·))) id node β

/-- What an evaluation is given was made before, and brings no guards along. -/
structure Grounded (scope : Scope) (base : Nat) : Prop where
  literal {id : NodeId} {v : Value} : scope.nodes.get id = .ok (.literal v) → v.Settled base
  functions : scope.functions = .builtin

def SettledBindings (scope : Scope) (base : Nat) (β : Bindings) : Prop :=
  ∀ x v, lookup scope β x = .ok v → v.Settled base

/-- The second outcome is the first one, unless it is spared. -/
def Agrees (nodes : SyntaxGraph) (base : Nat) (spared : Failure → Prop) (c : NodeId)
    (r : Except Failure Value) : Except Failure Value → Prop
  | .ok v => r = .ok v ∧ v.Alike (nodes.Refers c) base (.standing base) c v
  | .error failure => spared failure ∨ r = .error failure

theorem Agrees.eq_of_ne {nodes : SyntaxGraph} {base : Nat} {failure : Failure} {c : NodeId}
    {r r' : Except Failure Value} (h : Agrees nodes base (· = failure) c r r')
    (hne : r' ≠ .error failure) : r = r' := by
  cases r' with
  | ok v => exact h.1
  | error other =>
    rcases h with rfl | heq
    · exact absurd rfl hne
    · exact heq

section Answer

variable {scope : Scope} {base : Nat}

theorem lookup_push (β : Bindings) (x y : String) (v : Value) :
    lookup scope (β.push x v) y = if y = x then .ok v else lookup scope β y := by
  unfold lookup Bindings.get Bindings.push
  rw [List.lookup_cons]
  by_cases hy : y = x
  · rw [if_pos hy, beq_iff_eq.2 hy]
  · rw [if_neg hy, beq_eq_false_iff_ne.2 hy]

theorem SettledBindings.push {β : Bindings} (h : SettledBindings scope base β) (x : String)
    (e : Incidence) : SettledBindings scope base (β.push x (.edge e)) := by
  intro y v hv
  rw [lookup_push] at hv
  split at hv
  · cases hv
    exact (Value.IsSimple.edge e).settled base
  · exact h y v hv

theorem answering_follows {T : Terms} {R : Owners → Value → Value → Prop} {o : Owners}
    {ρ ρ' : Answering} {c : NodeId}
    (h : ∀ (o' : Owners) (w w' : Workspace), o.Grows o' → T.left o' w → T.right w' →
      match ρ c w'.bindings with
      | .ok v' => ∃ v, ρ' c w.bindings = .ok v ∧ R o' v v'
      | .error failure => T.spared failure ∨ ρ' c w.bindings = .error failure) :
    Follows T R o (answering ρ' c) (answering ρ c) := by
  intro o' w w' ho hleft hright
  have hagree := h o' w w' ho hleft hright
  simp only [answering]
  cases hρ : ρ c w'.bindings with
  | error failure =>
    rw [hρ] at hagree
    exact hagree.imp_right fun heq => ⟨w, by rw [heq], fun _ _ => ⟨o', .refl o', hleft⟩⟩
  | ok v' =>
    rw [hρ] at hagree
    rcases hagree with ⟨v, hv, hR⟩
    exact ⟨v, w, o', by rw [hv], .refl o', hleft, hright, hR⟩

/-- The node is computed on both sides from the given bindings, which neither side changes for good,
and the next handle stands for it. -/
def standingTerms (spared : Failure → Prop) (base : Nat) (id : NodeId) (β' β : Bindings) :
    Terms where
  spared := spared
  left := fun o w => o = .standing base ∧ w.bindings = β' ∧ w.supply.handles = base + id
  right := fun w => w.bindings = β ∧ w.supply.handles = base + id

section Standing

variable {spared : Failure → Prop} {ρ ρ' : Answering} {β β' : Bindings} {id : NodeId}

theorem Agrees.follows {c : NodeId}
    (h : Agrees scope.nodes base spared c (ρ' c β') (ρ c β)) :
    Follows (standingTerms spared base id β' β)
      (fun o => Value.Alike (scope.nodes.Refers c) base o c) (.standing base) (answering ρ' c)
      (answering ρ c) := by
  refine answering_follows ?_
  rintro _ w w' _ ⟨rfl, hw, _⟩ ⟨hw', _⟩
  rw [hw, hw']
  cases hρ : ρ c β with
  | error failure =>
    rw [hρ] at h
    exact h
  | ok v =>
    rw [hρ] at h
    exact ⟨v, h⟩

/-- A guard is entered with its own variable on top, on both sides, and left with what was below. -/
theorem Agrees.evaluateGuard_follows {predicate : NodeId} {x : String} {e : Incidence}
    (h : Agrees scope.nodes base spared predicate (ρ' predicate (β'.push x (.edge e)))
      (ρ predicate (β.push x (.edge e)))) :
    Follows (standingTerms spared base id β' β) (fun _ => Eq) (.standing base)
      (evaluateGuard scope (answering ρ') ⟨predicate, some x⟩ e)
      (evaluateGuard scope (answering ρ) ⟨predicate, some x⟩ e) := by
  refine Evaluation.evaluateGuard_follows ?_
  rintro _ w w' _ ⟨rfl, hw, hh⟩ ⟨hw', hh'⟩
  refine ⟨standingTerms spared base id (β'.push x (.edge e)) (β.push x (.edge e)),
    scope.nodes.Refers predicate, base, predicate, h.follows, ?_, ?_, fun _ hspared => hspared,
    ?_, ?_⟩
  · exact ⟨rfl, by rw [Workspace.entered, hw], hh⟩
  · exact ⟨by rw [Workspace.entered, hw'], hh'⟩
  · rintro o₁ w₁ _ ⟨ho, hw₁, hh₁⟩
    exact ⟨ho, by rw [Workspace.left, hw₁]; rfl, hh₁⟩
  · rintro w₁ ⟨hw₁, hh₁⟩
    exact ⟨by rw [Workspace.left, hw₁]; rfl, hh₁⟩

theorem claims_standingTerms :
    Claims base (standingTerms spared base id β' β) (fun o _ => o = .standing base) id := by
  refine ⟨fun h => h.1, ?_, fun h => h.2⟩
  rintro _ w ⟨rfl, _, hhandles⟩
  refine ⟨by lia, .standing base, .refl _, ?_, rfl⟩
  rw [Owners.standing, hhandles, Nat.add_sub_cancel_left]

/-- Answers that agree on what a node asks for make its rule agree. -/
theorem answer_agrees (hgrounded : Grounded scope base) {node : Node}
    (hget : scope.nodes.get id = .ok node)
    (hasked : ∀ n c, Relation.ReflTransGen scope.nodes.Asks id n → scope.nodes.Asks n c →
      Agrees scope.nodes base spared c (ρ' c β') (ρ c β))
    (hbound : ∀ n predicate x e, Relation.ReflTransGen scope.nodes.Asks id n →
      scope.nodes.Binds n predicate x →
      Agrees scope.nodes base spared predicate (ρ' predicate (β'.push x (.edge e)))
        (ρ predicate (β.push x (.edge e))))
    (hsettled : SettledBindings scope base β)
    (hlookup : ∀ x, scope.nodes.get id = .ok (.var x) → lookup scope β' x = lookup scope β x) :
    Agrees scope.nodes base spared id (answer scope base ρ' id node β')
      (answer scope base ρ id node β) := by
  have hanswers : Answers scope base (standingTerms spared base id β' β) (.standing base)
      (answering ρ') ρ id := by
    refine ⟨⟨fun _ _ h => h, fun _ _ h => h⟩, ?_, ?_, ?_, ?_, hgrounded.literal,
      hgrounded.functions⟩
    · exact fun hn hc => (hasked _ _ hn hc).follows
    · intro c w w₁ v h
      rcases Prod.mk.inj h with ⟨hv, rfl⟩
      exact ⟨w, by rw [answering, hv]⟩
    · exact fun e hn hbinds => (hbound _ _ _ e hn hbinds).evaluateGuard_follows
    · rintro x _ w w' hvar ⟨_, hw, _⟩ ⟨hw', _⟩
      rw [hw, hw']
      exact ⟨hlookup x hvar, hsettled x⟩
  have hrule := hanswers.rule_finishes claims_standingTerms hget (.standing base)
    (standingWorkspace base id β') (standingWorkspace base id β) (.refl _)
    ⟨rfl, rfl, rfl⟩ ⟨rfl, rfl⟩
  unfold answer
  rcases hy : rule scope (answering ρ) id node (standingWorkspace base id β) with
    ⟨failure | v', w₁'⟩
  · rw [hy] at hrule
    refine hrule.imp_right ?_
    rintro ⟨w₁, hx, _⟩
    rw [hx]
    rfl
  · rw [hy] at hrule
    rcases hrule with ⟨v, w₁, o₁, hx, _, rfl, hv⟩
    refine ⟨?_, hv.unnumbered_self⟩
    rw [hx]
    exact congrArg Except.ok hv.unnumbered_eq

end Standing

/-- What a node is worth depends on nothing but the variables that it mentions.  With more depth, and
when nothing is noticed of nodes that depend on themselves, only spared failures can change. -/
theorem uncached_agrees (hgrounded : Grounded scope base) (spared : Failure → Prop)
    (hexhausted : spared .exhausted) {depth depth' : Nat} (hdepth : depth ≤ depth')
    {busy : Option (List NodeId)}
    (hbusy : busy = none ∨ ∀ n, spared (.error (.cyclicEvaluation n))) {β β' : Bindings}
    {id : NodeId} (hsettled : SettledBindings scope base β)
    (hlookup : ∀ x, scope.nodes.Mentions x id → lookup scope β' x = lookup scope β x) :
    Agrees scope.nodes base spared id (uncached scope base depth' none id β')
      (uncached scope base depth busy id β) := by
  induction depth generalizing depth' busy β β' id with
  | zero => exact .inl hexhausted
  | succ depth ih =>
    rcases depth' with _ | depth'
    · cases hdepth
    · have hbusy' : busy.map (id :: ·) = none ∨ ∀ n, spared (.error (.cyclicEvaluation n)) :=
        hbusy.imp_left fun heq => by rw [heq]; rfl
      -- The induction is on the depth: the children are asked with one less, on both sides.
      unfold uncached
      cases hget : scope.nodes.get id with
      | error e => exact .inr rfl
      | ok node =>
        simp only [Option.getD_none, List.not_mem_nil, if_false, Option.map_none]
        split
        · rename_i hmem
          rcases hbusy with rfl | hcyclic
          · cases hmem
          · exact .inl (hcyclic id)
        · refine answer_agrees hgrounded hget ?_ ?_ hsettled fun x hvar => hlookup x (.var hvar)
          · intro n c hn hc
            refine ih (Nat.le_of_succ_le_succ hdepth) hbusy' hsettled ?_
            exact fun x hx => hlookup x (.of_asks hn (.asks hc hx))
          -- Inside a guard its own variable is the edge, and all others are as outside.
          · intro n predicate x e hn hbinds
            refine ih (Nat.le_of_succ_le_succ hdepth) hbusy' (hsettled.push x e) ?_
            intro y hy
            rw [lookup_push, lookup_push]
            split
            · rfl
            · rename_i hne
              exact hlookup y (.of_asks hn (.binds hbinds (Ne.symm hne) hy))

theorem uncached_eq (hgrounded : Grounded scope base) {depth depth' : Nat}
    (hdepth : depth ≤ depth') {β β' : Bindings} {id : NodeId}
    (hsettled : SettledBindings scope base β)
    (hlookup : ∀ x, scope.nodes.Mentions x id → lookup scope β' x = lookup scope β x)
    (hfound : uncached scope base depth none id β ≠ .error .exhausted) :
    uncached scope base depth' none id β' = uncached scope base depth none id β := by
  have hagree := uncached_agrees hgrounded (· = .exhausted) rfl hdepth (.inl rfl) hsettled hlookup
  exact hagree.eq_of_ne hfound

/-- A value is found although nothing is noticed of nodes that depend on themselves. -/
theorem uncached_ok (hgrounded : Grounded scope base) {depth : Nat} {busy : Option (List NodeId)}
    {β : Bindings} {id : NodeId} {v : Value} (hsettled : SettledBindings scope base β)
    (h : uncached scope base depth busy id β = .ok v) :
    uncached scope base depth none id β = .ok v := by
  have hagree : Agrees scope.nodes base (fun _ => True) id (uncached scope base depth none id β)
      (uncached scope base depth busy id β) :=
    uncached_agrees hgrounded (fun _ => True) trivial (Nat.le_refl depth) (.inr fun _ => trivial)
      hsettled fun _ _ => rfl
  rw [h] at hagree
  exact hagree.1

/-- There is a depth that is just enough. -/
theorem exists_depth (hgrounded : Grounded scope base) {depth : Nat} {β : Bindings} {id : NodeId}
    (hsettled : SettledBindings scope base β)
    (hfound : uncached scope base depth none id β ≠ .error .exhausted) :
    ∃ k < depth, uncached scope base k none id β = .error .exhausted ∧
      uncached scope base (k + 1) none id β = uncached scope base depth none id β := by
  induction depth with
  | zero => exact absurd rfl hfound
  | succ depth ih =>
    -- The last depth at which nothing is found comes right before the first one at which it is.
    by_cases hk : uncached scope base depth none id β = .error .exhausted
    · exact ⟨depth, Nat.lt_succ_self depth, hk, rfl⟩
    · rcases ih hk with ⟨k, hlt, hnot, heq⟩
      refine ⟨k, Nat.lt_succ_of_lt hlt, hnot, heq.trans ?_⟩
      exact (uncached_eq hgrounded (Nat.le_succ depth) hsettled (fun _ _ => rfl) hk).symm

end Answer

/-! ## Nodes that are being computed -/

/-- The depths that are allowed. -/
inductive Level where
  | upTo (depth : Nat)
  | unlimited

def Level.Covers : Level → Nat → Prop
  | upTo k, depth => depth ≤ k
  | unlimited, _ => True

/-- The node has a value at no depth that is allowed. -/
def Stuck (scope : Scope) (base : Nat) (level : Level) (β : Bindings) (n : NodeId) : Prop :=
  ∀ depth, level.Covers depth → uncached scope base depth none n β = .error .exhausted

/-- Nodes that are being computed when the node is asked for. -/
structure Busy (nodes : SyntaxGraph) (busy : List NodeId) (id : NodeId) : Prop where
  nodup : busy.Nodup
  lt {n : NodeId} : n ∈ busy → n < nodes.size
  leads {n : NodeId} : n ∈ busy → nodes.Below n id

namespace Busy

variable {nodes : SyntaxGraph} {busy : List NodeId} {id c : NodeId}

theorem nil : Busy nodes [] id :=
  ⟨.nil, fun h => absurd h List.not_mem_nil, fun h => absurd h List.not_mem_nil⟩

theorem below (h : Busy nodes busy id) (hc : nodes.Below id c) : Busy nodes busy c :=
  ⟨h.nodup, h.lt, fun hn => (h.leads hn).trans hc⟩

theorem cons (h : Busy nodes busy id) {node : Node} (hget : nodes.get id = .ok node)
    (hid : id ∉ busy) : Busy nodes (id :: busy) id := by
  refine ⟨List.nodup_cons.2 ⟨hid, h.nodup⟩, ?_, ?_⟩
  · intro n hn
    rcases List.mem_cons.1 hn with rfl | hn
    · by_contra hle
      have hnone : nodes.nodes[n]? = none := Array.getElem?_eq_none (Nat.le_of_not_lt hle)
      rw [SyntaxGraph.get, hnone] at hget
      cases hget
    · exact h.lt hn
  · intro n hn
    rcases List.mem_cons.1 hn with rfl | hn
    · exact .refl
    · exact h.leads hn

theorem length_le (h : Busy nodes busy id) : busy.length ≤ nodes.size := by
  have hsubset : busy ⊆ List.range nodes.size := fun n hn => List.mem_range.2 (h.lt hn)
  simpa using List.Nodup.length_le_of_subset h.nodup hsubset

end Busy

namespace Stuck

variable {scope : Scope} {base : Nat} {level : Level} {β : Bindings} {n : NodeId}

theorem lower (h : Stuck scope base level β n) {k : Nat} (hk : level.Covers k) :
    Stuck scope base (.upTo k) β n := by
  intro depth hdepth
  refine h depth ?_
  cases level with
  | upTo m => exact Nat.le_trans hdepth hk
  | unlimited => trivial

theorem of_eq (hgrounded : Grounded scope base) (hsettled : SettledBindings scope base β) {k : Nat}
    (h : uncached scope base k none n β = .error .exhausted) : Stuck scope base (.upTo k) β n := by
  intro depth hdepth
  by_contra hfound
  have heq := uncached_eq hgrounded hdepth hsettled (fun _ _ => rfl) hfound
  exact hfound (heq.symm.trans h)

/-- A guard frees none of the nodes that lead to it. -/
theorem push (hgrounded : Grounded scope base) (hconfined : scope.nodes.Confined)
    (hsettled : SettledBindings scope base β) {holder predicate : NodeId} {x : String}
    {e : Incidence} (hbinds : scope.nodes.Binds holder predicate x)
    (hleads : scope.nodes.Below n holder) (hbelow : scope.nodes.Below predicate n)
    (h : Stuck scope base level β n) : Stuck scope base level (β.push x (.edge e)) n := by
  intro depth hdepth
  by_contra hfound
  have hlookup : ∀ y, scope.nodes.Mentions y n →
      lookup scope β y = lookup scope (β.push x (.edge e)) y := by
    intro y hy
    rw [lookup_push, if_neg]
    rintro rfl
    exact hconfined.forward ⟨hbinds, hbelow, hy⟩ hleads
  have heq := uncached_eq hgrounded (Nat.le_refl depth) (hsettled.push x e) hlookup hfound
  exact hfound (heq.symm.trans (h depth hdepth))

end Stuck

section Noticing

variable {scope : Scope} {base : Nat} (hgrounded : Grounded scope base)
  (hconfined : scope.nodes.Confined)
include hgrounded

/-- What is found agrees with itself, and nothing need be known of the rest. -/
theorem agrees_of_eq {depth : Nat} {β : Bindings} {c : NodeId} {r : Except Failure Value}
    (hsettled : SettledBindings scope base β)
    (h : uncached scope base depth none c β ≠ .error .exhausted →
      r = uncached scope base depth none c β) :
    Agrees scope.nodes base (· = .exhausted) c r (uncached scope base depth none c β) := by
  have hself : Agrees scope.nodes base (· = .exhausted) c (uncached scope base depth none c β)
      (uncached scope base depth none c β) :=
    uncached_agrees hgrounded (· = .exhausted) rfl (Nat.le_refl depth) (.inl rfl) hsettled
      fun _ _ => rfl
  cases hρ : uncached scope base depth none c β with
  | ok v =>
    rw [hρ] at h hself
    exact ⟨h (by intro heq; cases heq), hself.2⟩
  | error failure =>
    rw [hρ] at h
    by_cases hfailure : failure = .exhausted
    · exact .inl hfailure
    · refine .inr (h fun heq => hfailure ?_)
      exact Except.error.inj heq

include hconfined

/-- A node that has a value at some depth has it also when nodes are being computed that have none
there. -/
theorem uncached_busy {depth k : Nat} {busy : List NodeId} {β : Bindings} {id : NodeId}
    (hsettled : SettledBindings scope base β) (hbusy : Busy scope.nodes busy id)
    (hdepth : scope.nodes.size < busy.length + depth)
    (hstuck : ∀ n ∈ busy, scope.nodes.Below id n → Stuck scope base (.upTo k) β n)
    (hfound : uncached scope base k none id β ≠ .error .exhausted) :
    uncached scope base depth (some busy) id β = uncached scope base k none id β := by
  induction depth generalizing k busy β id with
  | zero => exact absurd hbusy.length_le (Nat.not_le_of_lt hdepth)
  | succ depth ih =>
    rcases exists_depth hgrounded hsettled hfound with ⟨j, hj, hnot, heq⟩
    rw [← heq] at hfound ⊢
    -- A busy node has no value at this depth, and this one has.
    have hid : id ∉ busy := by
      intro hmem
      have hexhausted := hstuck id hmem .refl (j + 1) hj
      exact hfound hexhausted
    have hagree : Agrees scope.nodes base (· = .exhausted) id
        (uncached scope base (depth + 1) (some busy) id β)
        (uncached scope base (j + 1) none id β) := by
      unfold uncached
      cases hget : scope.nodes.get id with
      | error e => exact .inr rfl
      | ok node =>
        simp only [Option.getD_some, Option.getD_none, List.not_mem_nil, if_false, if_neg hid,
          Option.map_some, Option.map_none]
        have hcons := hbusy.cons hget hid
        -- At one depth less the node itself has none either, so it may join the busy ones.
        have hstuck' : ∀ n ∈ id :: busy, scope.nodes.Below id n →
            Stuck scope base (.upTo j) β n := by
          intro n hn hbelow
          rcases List.mem_cons.1 hn with rfl | hn
          · exact .of_eq hgrounded hsettled hnot
          · exact (hstuck n hn hbelow).lower (Nat.le_of_lt hj)
        have hlength : scope.nodes.size < (id :: busy).length + depth := by
          rw [List.length_cons]
          lia
        refine answer_agrees hgrounded hget ?_ ?_ hsettled fun _ _ => rfl
        · intro n c hn hc
          have hbelow : scope.nodes.Below id c :=
            (SyntaxGraph.below_of_asks hn).trans hc.below
          refine agrees_of_eq hgrounded hsettled (ih hsettled (hcons.below hbelow) hlength ?_)
          exact fun m hm hcm => hstuck' m hm (hbelow.trans hcm)
        · intro n predicate x e hn hbinds
          have hholder : scope.nodes.Below id n := SyntaxGraph.below_of_asks hn
          have hbelow : scope.nodes.Below id predicate := hholder.trans hbinds.below
          refine agrees_of_eq hgrounded (hsettled.push x e)
            (ih (hsettled.push x e) (hcons.below hbelow) hlength ?_)
          intro m hm hpm
          exact (hstuck' m hm (hbelow.trans hpm)).push hgrounded hconfined hsettled hbinds
            ((hcons.leads hm).trans hholder) hpm
    exact hagree.eq_of_ne hfound

end Noticing

end Evaluation
end PathQuery

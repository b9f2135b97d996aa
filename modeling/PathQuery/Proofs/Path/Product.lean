import Mathlib.Order.Bounds.Defs
import PathQuery.Proofs.Automaton.Closure
import PathQuery.Proofs.Automaton.Run
import PathQuery.Proofs.Graph.Walk
import PathQuery.Proofs.Graph.WellFormed

/-!
# The product of a graph and an automaton

A traversal moves over pairs of a vertex and a state.  One hop takes one edge by one transition and
then any number of empty transitions.

* `Hop`: one hop between two pairs;
* `Layer`: the pairs that are reached by a number of hops from the start;
* `layer_iff`: these are the pairs at the end of a walk and of a run that reads it.
-/

namespace PathQuery

section Product

variable (g : Graph) (a : Automaton) (accepts : Transition → Incidence → Prop)

/-- From a pair of a vertex and a state by one incidence to the next pair. -/
def Hop (v : Nat) (s : StateId) (e : Incidence) (w : Nat) (x : StateId) : Prop :=
  g.this e = some v ∧ g.that e = some w ∧ ∃ t ∈ a.transitions, t.source = s ∧
    t.symbol.isEpsilon = false ∧ accepts t e ∧ Relation.ReflTransGen a.Bridged t.target x

variable (start : IdSet)

inductive Layer : Nat → Nat → StateId → Prop where
  | seed {v : Nat} {s : StateId} : v ∈ start → v < g.vertexCount →
      Relation.ReflTransGen a.Bridged a.initial s → Layer 0 v s
  | hop {k v w : Nat} {s x : StateId} {e : Incidence} :
      Layer k v s → Hop g a accepts v s e w x → Layer (k + 1) w x

variable {g a accepts start}

theorem run_of_bridged {s t : StateId} (h : Relation.ReflTransGen a.Bridged s t) :
    a.Run accepts s [] t := by
  induction h using Relation.ReflTransGen.head_induction_on with
  | refl => exact .nil t
  | head ht _ ih => exact .epsilon ht ih

theorem Hop.run {v w : Nat} {s x : StateId} {e : Incidence} (h : Hop g a accepts v s e w x) :
    a.Run accepts s [e] x := by
  rcases h with ⟨_, _, t, ht, rfl, hsymbol, he, hclosure⟩
  exact .step ht hsymbol he (run_of_bridged hclosure)

theorem Hop.walk {v w : Nat} {s x : StateId} {e : Incidence} (h : Hop g a accepts v s e w x) :
    g.Walk v [e] w :=
  Graph.walk_singleton_iff.2 ⟨h.1, h.2.1⟩

theorem Layer.exists_walk {k w : Nat} {x : StateId} (h : Layer g a accepts start k w x) :
    ∃ v es, v ∈ start ∧ v < g.vertexCount ∧ es.length = k ∧ g.Walk v es w ∧
      a.Run accepts a.initial es x := by
  induction h with
  | seed hv hlt hs =>
    exact ⟨_, [], hv, hlt, rfl, .nil _, run_of_bridged hs⟩
  | hop _ hhop ih =>
    rcases ih with ⟨v, es, hv, hlt, rfl, hwalk, hrun⟩
    refine ⟨v, es ++ [_], hv, hlt, List.length_append, ?_, hrun.append hhop.run⟩
    exact Graph.walk_append_iff.2 ⟨_, hwalk, hhop.walk⟩

theorem Layer.vertex_lt (hg : g.WellFormed) {k v : Nat} {s : StateId}
    (h : Layer g a accepts start k v s) : v < g.vertexCount := by
  cases h with
  | seed _ hlt _ => exact hlt
  | hop _ hhop => exact hg.that_lt hhop.2.1

theorem Layer.state_lt (ha : a.Indexed) {k v : Nat} {s : StateId}
    (h : Layer g a accepts start k v s) : s < a.stateCount := by
  cases h with
  | seed _ _ hs =>
    exact Automaton.bridged_lt ha hs ha.initial_lt
  | hop _ hhop =>
    rcases hhop with ⟨_, _, t, ht, _, _, _, hx⟩
    exact Automaton.bridged_lt ha hx (ha.target_lt ht)

/-- A run that starts in a state whose whole closure is in a layer ends in a later layer. -/
theorem layer_of_run {s x : StateId} {es : List Incidence} (hrun : a.Run accepts s es x)
    {k v w : Nat}
    (hclosure : ∀ y, Relation.ReflTransGen a.Bridged s y → Layer g a accepts start k v y)
    (hwalk : g.Walk v es w) : Layer g a accepts start (k + es.length) w x := by
  induction hrun generalizing k v with
  | nil s =>
    obtain rfl := Graph.walk_nil_iff.1 hwalk
    exact hclosure s .refl
  | epsilon ht _ ih =>
    apply ih _ hwalk
    intro y hy
    exact hclosure y (.head ht hy)
  | step ht hsymbol he _ ih =>
    cases hwalk with
    | cons hthis hthat hrest =>
      rw [List.length_cons, Nat.add_comm _ 1, ← Nat.add_assoc]
      apply ih _ hrest
      intro y hy
      exact (hclosure _ .refl).hop ⟨hthis, hthat, _, ht, rfl, hsymbol, he, hy⟩

theorem layer_iff {k w : Nat} {x : StateId} : Layer g a accepts start k w x ↔
    ∃ v es, v ∈ start ∧ v < g.vertexCount ∧ es.length = k ∧ g.Walk v es w ∧
      a.Run accepts a.initial es x := by
  constructor
  · exact Layer.exists_walk
  · rintro ⟨v, es, hv, hlt, rfl, hwalk, hrun⟩
    rw [← Nat.zero_add es.length]
    exact layer_of_run hrun (fun y hy => .seed hv hlt hy) hwalk

theorem layer_withClosures {k v : Nat} {s : StateId} :
    Layer g a.withClosures accepts start k v s ↔ Layer g a accepts start k v s := by
  constructor
  · intro h
    induction h with
    | seed hv hlt hs => exact .seed hv hlt hs
    | hop _ hhop ih => exact ih.hop hhop
  · intro h
    induction h with
    | seed hv hlt hs => exact .seed hv hlt hs
    | hop _ hhop ih => exact ih.hop hhop

end Product

end PathQuery

import Mathlib.Data.Fintype.EquivFin
import Mathlib.Data.List.Nodup
import Mathlib.Logic.Relation
import PathQuery.Schedule.DependencyGraph

/-!
# Well-formed batches

Every dependency is kept twice: the one query lists its successor, the other its predecessor.
Workers count down along the successors what was counted up over the predecessors, so that a query
starts at the right moment only if the two lists agree.

* `DependencyGraph.Built`: the batches that the operations put together;
* `DependencyGraph.WellFormed`: no name occurs twice, and the two lists of every dependency agree;
* `Built.wellFormed`: every batch that is put together is well-formed;
* `topologicalOrder_emptied`, `WellFormed.of_emptied`: the bodies have no part in this;
* `DependencyGraph.Acyclic`: no query depends on itself, over however many others;
* `WellFormed.induction_from`, `Acyclic.induction`: what passes from the predecessors to a query
  holds of the queries that depend on no cycle, so of all if there is none.
-/

namespace PathQuery
namespace DependencyGraph

/-- What calls make out of the empty batch.  A call that fails leaves the batch as it was. -/
inductive Built : DependencyGraph → Prop where
  | empty : Built {}
  | addQuery {dag dag' : DependencyGraph} (name : String) (body : Body) :
      Built dag → dag.addQuery name body = .ok dag' → Built dag'
  | addDependency {dag dag' : DependencyGraph} (successor predecessor : String) :
      Built dag → dag.addDependency successor predecessor = .ok dag' → Built dag'

def predecessorsOf (dag : DependencyGraph) (i : Nat) : List Nat :=
  (dag.nodes[i]?.map (·.predecessors)).getD []

structure WellFormed (dag : DependencyGraph) : Prop where
  names_nodup : dag.names.Nodup
  mem_successorsOf_iff (i j : Nat) : j ∈ dag.successorsOf i ↔ i ∈ dag.predecessorsOf j
  nodup_successorsOf (i : Nat) : (dag.successorsOf i).Nodup
  nodup_predecessorsOf (i : Nat) : (dag.predecessorsOf i).Nodup

/-! ## Positions -/

theorem lt_size_of_mem_successorsOf {dag : DependencyGraph} {i j : Nat}
    (h : j ∈ dag.successorsOf i) : i < dag.size := by
  by_contra hi
  simp [successorsOf, Array.getElem?_eq_none (Nat.le_of_not_lt hi)] at h

theorem lt_size_of_mem_predecessorsOf {dag : DependencyGraph} {i j : Nat}
    (h : i ∈ dag.predecessorsOf j) : j < dag.size := by
  by_contra hj
  simp [predecessorsOf, Array.getElem?_eq_none (Nat.le_of_not_lt hj)] at h

theorem length_names (dag : DependencyGraph) : dag.names.length = dag.size := by
  simp [names, size]

theorem getElem?_names (dag : DependencyGraph) (i : Nat) :
    dag.names[i]? = dag.nodes[i]?.map (·.name) := by
  simp [names]

theorem getElem?_names_of_lt {dag : DependencyGraph} {i : Nat} (hi : i < dag.size) :
    dag.names[i]? = some (dag.nameOf i) := by
  rw [getElem?_names, nameOf, Array.getElem?_eq_getElem hi]
  rfl

theorem lt_size_of_position {dag : DependencyGraph} {name : String} {i : Nat}
    (h : dag.position name = .ok i) : i < dag.size := by
  unfold position at h
  split at h
  next hfound =>
    cases h
    rw [← length_names]
    exact (List.idxOf?_eq_some_iff.1 hfound).1
  next => cases h

/-- No two queries have one name. -/
theorem WellFormed.nameOf_inj {dag : DependencyGraph} (hw : dag.WellFormed) {i j : Nat}
    (hi : i < dag.size) (hj : j < dag.size) (h : dag.nameOf i = dag.nameOf j) : i = j := by
  rw [← length_names] at hi
  refine (List.getElem?_inj hi hw.names_nodup).1 ?_
  rw [getElem?_names_of_lt (by rwa [← length_names]), getElem?_names_of_lt hj, h]

/-! ## Bodies taken out

Names and dependencies are those of the batch before. -/

section Emptied

variable (dag : DependencyGraph)

@[simp] theorem size_emptied : dag.emptied.size = dag.size := by
  simp [size, emptied]

@[simp] theorem names_emptied : dag.emptied.names = dag.names := by
  simp [names, emptied]

@[simp] theorem nameOf_emptied : dag.emptied.nameOf = dag.nameOf := by
  funext i
  simp [nameOf, emptied, Function.comp_def]

@[simp] theorem successorsOf_emptied : dag.emptied.successorsOf = dag.successorsOf := by
  funext i
  simp [successorsOf, emptied, Function.comp_def]

@[simp] theorem predecessorsOf_emptied : dag.emptied.predecessorsOf = dag.predecessorsOf := by
  funext i
  simp [predecessorsOf, emptied, Function.comp_def]

@[simp] theorem indegrees_emptied : dag.emptied.indegrees = dag.indegrees := by
  simp [indegrees, emptied, Function.comp_def]

theorem eliminate_emptied (bound : Nat) (queue : List Nat) (indegree : Array Int)
    (order : List Nat) :
    dag.emptied.eliminate bound queue indegree order =
      dag.eliminate bound queue indegree order := by
  induction bound generalizing queue indegree order with
  | zero => rfl
  | succ bound ih =>
    cases queue with
    | nil => rfl
    | cons i queue =>
      rw [eliminate, eliminate, successorsOf_emptied]
      exact ih _ _ _

@[simp] theorem topologicalOrder_emptied : dag.emptied.topologicalOrder = dag.topologicalOrder := by
  unfold topologicalOrder
  rw [indegrees_emptied, size_emptied, nameOf_emptied, eliminate_emptied]

/-- Whoever does not look at the bodies cannot tell apart batches that differ in these only. -/
theorem eq_of_emptied_eq {α : Type} {f : DependencyGraph → α} (hf : ∀ dag, f dag.emptied = f dag)
    {dag dag' : DependencyGraph} (hsame : dag'.emptied = dag.emptied) : f dag' = f dag := by
  rw [← hf dag', hsame, hf]

variable {dag}

theorem WellFormed.of_emptied_eq {dag' : DependencyGraph} (hw : dag.WellFormed)
    (hsame : dag'.emptied = dag.emptied) : dag'.WellFormed := by
  have hnames := eq_of_emptied_eq names_emptied hsame
  have hsuccessors := eq_of_emptied_eq successorsOf_emptied hsame
  have hpredecessors := eq_of_emptied_eq predecessorsOf_emptied hsame
  constructor
  case names_nodup => exact hnames ▸ hw.names_nodup
  case mem_successorsOf_iff => simpa only [hsuccessors, hpredecessors] using hw.mem_successorsOf_iff
  case nodup_successorsOf => simpa only [hsuccessors] using hw.nodup_successorsOf
  case nodup_predecessorsOf => simpa only [hpredecessors] using hw.nodup_predecessorsOf

end Emptied

/-! ## The operations -/

theorem wellFormed_empty : WellFormed {} where
  names_nodup := List.nodup_nil
  mem_successorsOf_iff _ _ := by simp [successorsOf, predecessorsOf]
  nodup_successorsOf _ := by simp [successorsOf]
  nodup_predecessorsOf _ := by simp [predecessorsOf]

section AddQuery

variable {dag dag' : DependencyGraph} {name : String} {body : Body}

theorem addQuery_eq_ok_iff : dag.addQuery name body = .ok dag' ↔
    name ∉ dag.names ∧ dag' = ⟨dag.nodes.push { name, body := some body }⟩ := by
  unfold addQuery contains find
  cases hfound : dag.names.idxOf? name with
  | none => simp [List.idxOf?_eq_none_iff.1 hfound, eq_comm]
  | some i =>
    have : name ∈ dag.names := by
      by_contra habsent
      simp [List.idxOf?_eq_none_iff.2 habsent] at hfound
    simp [this]

/-- The new query has no dependencies yet. -/
theorem successorsOf_addQuery (h : dag.addQuery name body = .ok dag') (i : Nat) :
    dag'.successorsOf i = dag.successorsOf i := by
  obtain ⟨-, rfl⟩ := addQuery_eq_ok_iff.1 h
  unfold successorsOf
  rw [Array.getElem?_push]
  split
  next hi => simp [hi]
  next => rfl

theorem predecessorsOf_addQuery (h : dag.addQuery name body = .ok dag') (i : Nat) :
    dag'.predecessorsOf i = dag.predecessorsOf i := by
  obtain ⟨-, rfl⟩ := addQuery_eq_ok_iff.1 h
  unfold predecessorsOf
  rw [Array.getElem?_push]
  split
  next hi => simp [hi]
  next => rfl

theorem names_addQuery (h : dag.addQuery name body = .ok dag') :
    dag'.names = dag.names ++ [name] := by
  obtain ⟨-, rfl⟩ := addQuery_eq_ok_iff.1 h
  simp [names]

theorem WellFormed.addQuery (hw : dag.WellFormed) (h : dag.addQuery name body = .ok dag') :
    dag'.WellFormed where
  names_nodup := by
    rw [names_addQuery h]
    refine hw.names_nodup.append (List.nodup_singleton name) fun other hmem hsingle => ?_
    rw [List.mem_singleton] at hsingle
    exact (addQuery_eq_ok_iff.1 h).1 (hsingle ▸ hmem)
  mem_successorsOf_iff i j := by
    rw [successorsOf_addQuery h, predecessorsOf_addQuery h]
    exact hw.mem_successorsOf_iff i j
  nodup_successorsOf i := by
    rw [successorsOf_addQuery h]
    exact hw.nodup_successorsOf i
  nodup_predecessorsOf i := by
    rw [predecessorsOf_addQuery h]
    exact hw.nodup_predecessorsOf i

end AddQuery

section Link

variable {dag : DependencyGraph} {s p : Nat}

/-- Notes a dependency in both lists. -/
def link (dag : DependencyGraph) (s p : Nat) : DependencyGraph :=
  let nodes := dag.nodes.modify p fun node => { node with successors := node.successors ++ [s] }
  ⟨nodes.modify s fun node => { node with predecessors := node.predecessors ++ [p] }⟩

/-- A dependency that is there already is not noted again. -/
theorem addDependency_eq_ok {dag' : DependencyGraph} {successor predecessor : String}
    (h : dag.addDependency successor predecessor = .ok dag') :
    ∃ s p, s < dag.size ∧ p < dag.size ∧
      dag' = if s ∈ dag.successorsOf p then dag else dag.link s p := by
  unfold addDependency at h
  cases hs : dag.position successor with
  | error e => simp [hs, bind, Except.bind] at h
  | ok s =>
    cases hp : dag.position predecessor with
    | error e => simp [hs, hp, bind, Except.bind] at h
    | ok p =>
      refine ⟨s, p, lt_size_of_position hs, lt_size_of_position hp, ?_⟩
      simp only [hs, hp, bind, Except.bind, pure, Except.pure, List.contains_iff_mem] at h
      split at h
      next hmem => rw [if_pos hmem]; exact (Except.ok.inj h).symm
      next hnew => rw [if_neg hnew]; exact (Except.ok.inj h).symm

theorem names_link (dag : DependencyGraph) (s p : Nat) : (dag.link s p).names = dag.names := by
  apply List.ext_getElem?
  intro i
  simp only [getElem?_names, link, Array.getElem?_modify, apply_ite (Option.map QueryNode.name),
    Option.map_map, Function.comp_def, ite_self]

theorem successorsOf_link (hp : p < dag.size) (i : Nat) :
    (dag.link s p).successorsOf i =
      if i = p then dag.successorsOf i ++ [s] else dag.successorsOf i := by
  unfold size at hp
  simp only [successorsOf, link, Array.getElem?_modify, apply_ite (Option.map QueryNode.successors),
    Option.map_map, Function.comp_def, ite_self]
  by_cases h : i = p
  · subst h
    simp [Array.getElem?_eq_getElem hp]
  · simp [h, Ne.symm h]

theorem predecessorsOf_link (hs : s < dag.size) (i : Nat) :
    (dag.link s p).predecessorsOf i =
      if i = s then dag.predecessorsOf i ++ [p] else dag.predecessorsOf i := by
  unfold size at hs
  simp only [predecessorsOf, link, Array.getElem?_modify,
    apply_ite (Option.map QueryNode.predecessors), Option.map_map, Function.comp_def, ite_self]
  by_cases h : i = s
  · subst h
    simp [Array.getElem?_eq_getElem hs, apply_ite]
  · simp [h, Ne.symm h]

theorem WellFormed.link (hw : dag.WellFormed) (hs : s < dag.size) (hp : p < dag.size)
    (hnew : s ∉ dag.successorsOf p) : (dag.link s p).WellFormed where
  names_nodup := by
    rw [names_link]
    exact hw.names_nodup
  mem_successorsOf_iff i j := by
    rw [successorsOf_link hp, predecessorsOf_link hs]
    have hold := hw.mem_successorsOf_iff i j
    by_cases hi : i = p <;> by_cases hj : j = s <;> simp [hi, hj] <;> simp_all
  nodup_successorsOf i := by
    rw [successorsOf_link hp]
    split
    next hi =>
      subst hi
      exact (hw.nodup_successorsOf i).append (List.nodup_singleton s) (by simpa using hnew)
    next => exact hw.nodup_successorsOf i
  nodup_predecessorsOf i := by
    rw [predecessorsOf_link hs]
    split
    next hi =>
      subst hi
      rw [hw.mem_successorsOf_iff] at hnew
      exact (hw.nodup_predecessorsOf i).append (List.nodup_singleton p) (by simpa using hnew)
    next => exact hw.nodup_predecessorsOf i

end Link

theorem Built.wellFormed {dag : DependencyGraph} (hbuilt : dag.Built) : dag.WellFormed := by
  induction hbuilt with
  | empty => exact wellFormed_empty
  | addQuery _ _ _ hadded ih => exact ih.addQuery hadded
  | addDependency _ _ _ hadded ih =>
    obtain ⟨s, p, hs, hp, rfl⟩ := addDependency_eq_ok hadded
    split
    next => exact ih
    next hnew => exact ih.link hs hp hnew

/-! ## Counting down -/

theorem size_foldl_release (queries : List Nat) (indegree : Array Int) (ready : List Nat) :
    (queries.foldl release (indegree, ready)).1.size = indegree.size := by
  induction queries generalizing indegree ready with
  | nil => rfl
  | cons s queries ih =>
    rw [List.foldl_cons]
    exact (ih _ _).trans Array.size_modify

/-- Every query of the list is counted down once, and those that waited for one more are noted. -/
theorem foldl_release {queries : List Nat} (hnodup : queries.Nodup) (indegree : Array Int)
    (ready : List Nat) :
    (∀ j : Nat, (queries.foldl release (indegree, ready)).1[j]? =
      if j ∈ queries then indegree[j]?.map (· - 1) else indegree[j]?) ∧
    (queries.foldl release (indegree, ready)).2 =
      ready ++ queries.filter fun s => indegree[s]? == some 1 := by
  induction queries generalizing indegree ready with
  | nil => simp
  | cons s queries ih =>
    obtain ⟨hnew, hnodup⟩ := List.nodup_cons.1 hnodup
    obtain ⟨ihCounts, ihReady⟩ := ih hnodup (release (indegree, ready) s).1
      (release (indegree, ready) s).2
    have hothers : ∀ j ∈ queries, (indegree.modify s (· - 1))[j]? = indegree[j]? := fun j hmem => by
      have hs : s ≠ j := fun hsame => hnew (hsame ▸ hmem)
      rw [Array.getElem?_modify, if_neg hs]
    constructor
    · intro j
      rw [List.foldl_cons, ihCounts j]
      simp only [release, Array.getElem?_modify, List.mem_cons]
      by_cases hs : j = s
      · subst hs
        simp [hnew]
      · simp [hs, Ne.symm hs]
    · have hlast : ((indegree.modify s (· - 1))[s]? == some 0) = (indegree[s]? == some 1) := by
        rw [Array.getElem?_modify, if_pos rfl]
        cases indegree[s]? with
        | none => rfl
        | some n =>
          have : n - 1 = 0 ↔ n = 1 := by omega
          simp [this]
      rw [List.foldl_cons, ihReady]
      simp only [release, hlast, List.filter_cons]
      rw [List.filter_congr fun j hmem => by rw [hothers j hmem]]
      split <;> simp

/-! ## Dependence -/

theorem WellFormed.successor_lt {dag : DependencyGraph} (hw : dag.WellFormed) {i j : Nat}
    (h : j ∈ dag.successorsOf i) : j < dag.size :=
  lt_size_of_mem_predecessorsOf ((hw.mem_successorsOf_iff i j).1 h)

theorem WellFormed.predecessor_lt {dag : DependencyGraph} (hw : dag.WellFormed) {i j : Nat}
    (h : i ∈ dag.predecessorsOf j) : i < dag.size :=
  lt_size_of_mem_successorsOf ((hw.mem_successorsOf_iff i j).2 h)

/-- The query `j` may start only after `i`. -/
def DependsOn (dag : DependencyGraph) (j i : Nat) : Prop :=
  i ∈ dag.predecessorsOf j

/-- No query waits for itself. -/
def Acyclic (dag : DependencyGraph) : Prop :=
  ∀ i, ¬ Relation.TransGen dag.DependsOn i i

/-- A batch in which queries depend on earlier ones only. -/
theorem acyclic_of_lt {dag : DependencyGraph} (hlt : ∀ j i, dag.DependsOn j i → i < j) :
    dag.Acyclic := by
  intro i hcycle
  have hdescends : ∀ j, Relation.TransGen dag.DependsOn i j → j < i := fun j hpath => by
    induction hpath with
    | single h => exact hlt _ _ h
    | tail _ h ih => exact (hlt _ _ h).trans ih
  exact lt_irrefl i (hdescends i hcycle)

/-- What passes from the predecessors to a query holds of every query that depends on no cycle. -/
theorem WellFormed.induction_from {dag : DependencyGraph} (hw : dag.WellFormed) {j : Nat}
    (hfree : ∀ c, Relation.ReflTransGen dag.DependsOn j c → ¬ Relation.TransGen dag.DependsOn c c)
    {motive : Nat → Prop}
    (hstep : ∀ k < dag.size, (∀ i ∈ dag.predecessorsOf k, motive i) → motive k)
    (hj : j < dag.size) : motive j := by
  -- There are finitely many queries, so a dependence without cycles can be followed to its end.
  let Reached := { k : Fin dag.size // Relation.ReflTransGen dag.DependsOn j k }
  let before (a b : Reached) : Prop := Relation.TransGen dag.DependsOn b.1 a.1
  have : IsTrans Reached before := ⟨fun _ _ _ hab hbc => hbc.trans hab⟩
  have : Std.Irrefl before := ⟨fun k => hfree k.1 k.2⟩
  have hwf : WellFounded before := Finite.wellFounded_of_trans_of_irrefl before
  exact hwf.induction (C := fun k => motive k.1) ⟨⟨j, hj⟩, .refl⟩ fun k ih =>
    hstep k.1 k.1.isLt fun i hmem =>
      ih ⟨⟨i, hw.predecessor_lt hmem⟩, k.2.tail hmem⟩ (.single hmem)

theorem Acyclic.induction {dag : DependencyGraph} (hacyclic : dag.Acyclic) (hw : dag.WellFormed)
    {motive : Nat → Prop}
    (hstep : ∀ j < dag.size, (∀ i ∈ dag.predecessorsOf j, motive i) → motive j) :
    ∀ j < dag.size, motive j :=
  fun _ => hw.induction_from (fun c _ => hacyclic c) hstep

end DependencyGraph
end PathQuery

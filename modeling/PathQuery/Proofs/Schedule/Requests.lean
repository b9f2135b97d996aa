import Mathlib.Data.List.Induction
import PathQuery.Proofs.Schedule.DependencyGraph

/-!
# What batches are asked for

A batch is put together by one request after the other, and a request that cannot be granted leaves
no trace.  So the batch can be described without it, by the list of the requests alone.

* `DependencyGraph.Request`, `DependencyGraph.assemble`: a list of requests and the batch that comes
  of it;
* `queries`: the names that were asked for, each where it came first;
* `Requires`: the dependencies that were asked for when both queries were there;
* `names_assemble`, `requires_iff`: the batch has these queries and these dependencies;
* `transGen_requires_iff`: so chains of dependencies are the same, by name and by position.
-/

namespace PathQuery
namespace DependencyGraph

open Relation

inductive Request where
  | addQuery (name : String) (body : Body)
  | addDependency (successor predecessor : String)

namespace Request

def perform (dag : DependencyGraph) : Request → Except EvalError DependencyGraph
  | addQuery name body => dag.addQuery name body
  | addDependency successor predecessor => dag.addDependency successor predecessor

/-- The query that the request would add. -/
def name? : Request → Option String
  | addQuery name _ => some name
  | addDependency _ _ => none

end Request

/-- A request that fails leaves the batch as it was. -/
def attempt (dag : DependencyGraph) (request : Request) : DependencyGraph :=
  match request.perform dag with
  | .ok dag => dag
  | .error _ => dag

def assemble (requests : List Request) : DependencyGraph :=
  requests.foldl attempt {}

def queries (requests : List Request) : List String :=
  (requests.filterMap Request.name?).eraseDups

/-- The dependency was asked for after both queries. -/
def Requires (requests : List Request) (successor predecessor : String) : Prop :=
  ∃ earlier, earlier ++ [.addDependency successor predecessor] <+: requests ∧
    successor ∈ queries earlier ∧ predecessor ∈ queries earlier

/-! ## One request more -/

theorem assemble_snoc (requests : List Request) (request : Request) :
    assemble (requests ++ [request]) = (assemble requests).attempt request := by
  simp [assemble]

theorem eraseDups_snoc (names : List String) (name : String) :
    (names ++ [name]).eraseDups =
      if name ∈ names then names.eraseDups else names.eraseDups ++ [name] := by
  rw [List.eraseDups_append]
  by_cases hmem : name ∈ names
  · simp [List.removeAll, hmem]
  · simp [List.removeAll, List.eraseDups_cons, hmem]

theorem queries_snoc_addQuery (requests : List Request) (name : String) (body : Body) :
    queries (requests ++ [.addQuery name body]) =
      if name ∈ queries requests then queries requests else queries requests ++ [name] := by
  have hasked : (requests ++ [Request.addQuery name body]).filterMap Request.name? =
      requests.filterMap Request.name? ++ [name] := List.filterMap_append
  simp only [queries, hasked, eraseDups_snoc, List.mem_eraseDups]

theorem queries_snoc_addDependency (requests : List Request) (successor predecessor : String) :
    queries (requests ++ [.addDependency successor predecessor]) = queries requests := by
  have hasked :
      (requests ++ [Request.addDependency successor predecessor]).filterMap Request.name? =
        requests.filterMap Request.name? ++ [] := List.filterMap_append
  rw [queries, hasked, List.append_nil, queries]

theorem requires_snoc_addQuery {requests : List Request} {name : String} {body : Body}
    {s p : String} :
    Requires (requests ++ [.addQuery name body]) s p ↔ Requires requests s p := by
  simp [Requires, List.prefix_concat_iff]

theorem requires_snoc_addDependency {requests : List Request} {successor predecessor s p : String} :
    Requires (requests ++ [.addDependency successor predecessor]) s p ↔
      Requires requests s p ∨ (s = successor ∧ p = predecessor ∧
        s ∈ queries requests ∧ p ∈ queries requests) := by
  constructor
  · rintro ⟨earlier, hasked, hs, hp⟩
    rcases List.prefix_concat_iff.1 hasked with hsame | hasked
    · obtain ⟨rfl, hlast⟩ := List.append_inj' hsame rfl
      cases hlast
      exact .inr ⟨rfl, rfl, hs, hp⟩
    · exact .inl ⟨earlier, hasked, hs, hp⟩
  · rintro (⟨earlier, hasked, hs, hp⟩ | ⟨rfl, rfl, hs, hp⟩)
    · exact ⟨earlier, hasked.trans (List.prefix_append _ _), hs, hp⟩
    · exact ⟨requests, List.prefix_refl _, hs, hp⟩

/-! ## Positions and names -/

section Positions

variable {dag : DependencyGraph} {name : String} {i j : Nat}

theorem position_eq_ok_iff : dag.position name = .ok i ↔ dag.names.idxOf? name = some i := by
  unfold position find
  cases dag.names.idxOf? name <;> simp

theorem exists_position_iff : (∃ i, dag.position name = .ok i) ↔ name ∈ dag.names := by
  simp only [position_eq_ok_iff]
  rw [← Option.isSome_iff_exists, ← Option.ne_none_iff_isSome, Ne, List.idxOf?_eq_none_iff, not_not]

theorem nameOf_eq (dag : DependencyGraph) (i : Nat) : dag.nameOf i = dag.names[i]?.getD "" := by
  rw [getElem?_names, nameOf]

theorem nameOf_of_position (h : dag.position name = .ok i) : dag.nameOf i = name := by
  obtain ⟨hlt, hsame, -⟩ := List.idxOf?_eq_some_iff.1 (position_eq_ok_iff.1 h)
  rw [nameOf_eq, List.getElem?_eq_getElem hlt, hsame]
  rfl

theorem map_nameOf_range (dag : DependencyGraph) :
    (List.range dag.size).map dag.nameOf = dag.names := by
  apply List.ext_getElem?
  intro i
  rw [List.getElem?_map]
  by_cases hlt : i < dag.size
  · rw [List.getElem?_range hlt, getElem?_names_of_lt hlt]
    rfl
  · have hge : dag.size ≤ i := Nat.le_of_not_lt hlt
    rw [List.getElem?_eq_none (by simpa using hge), List.getElem?_eq_none (by rwa [length_names])]
    rfl

end Positions

/-! ## Batches of requests -/

section Attempt

variable {dag : DependencyGraph} {i j : Nat}

theorem built_attempt (hbuilt : dag.Built) (request : Request) : (dag.attempt request).Built := by
  unfold attempt
  cases hgranted : request.perform dag with
  | error e => exact hbuilt
  | ok dag' =>
    cases request with
    | addQuery name body => exact .addQuery name body hbuilt hgranted
    | addDependency s p => exact .addDependency s p hbuilt hgranted

theorem names_attempt_addQuery (dag : DependencyGraph) (name : String) (body : Body) :
    (dag.attempt (.addQuery name body)).names =
      if name ∈ dag.names then dag.names else dag.names ++ [name] := by
  simp only [attempt, Request.perform]
  by_cases hmem : name ∈ dag.names
  · rw [if_pos hmem]
    split
    next hadded => exact absurd hmem (addQuery_eq_ok_iff.1 hadded).1
    next => rfl
  · have hadded : dag.addQuery name body = .ok ⟨dag.nodes.push { name, body := some body }⟩ :=
      addQuery_eq_ok_iff.2 ⟨hmem, rfl⟩
    rw [if_neg hmem, hadded]
    exact names_addQuery hadded

theorem dependsOn_attempt_addQuery {name : String} {body : Body} :
    (dag.attempt (.addQuery name body)).DependsOn j i ↔ dag.DependsOn j i := by
  simp only [attempt, Request.perform]
  split
  next hadded => rw [DependsOn, predecessorsOf_addQuery hadded, DependsOn]
  next => rfl

/-- The dependency is there afterwards, or one of the queries is not. -/
theorem attempt_addDependency (dag : DependencyGraph) (successor predecessor : String) :
    (∃ s p, dag.position successor = .ok s ∧ dag.position predecessor = .ok p ∧
      dag.attempt (.addDependency successor predecessor) =
        if s ∈ dag.successorsOf p then dag else dag.link s p) ∨
    (¬ (successor ∈ dag.names ∧ predecessor ∈ dag.names) ∧
      dag.attempt (.addDependency successor predecessor) = dag) := by
  unfold attempt Request.perform addDependency
  simp only [← exists_position_iff]
  cases hs : dag.position successor with
  | error e => exact .inr ⟨by simp, rfl⟩
  | ok s =>
    cases hp : dag.position predecessor with
    | error e => exact .inr ⟨by simp, rfl⟩
    | ok p =>
      refine .inl ⟨s, p, rfl, rfl, ?_⟩
      simp only [bind, Except.bind, pure, Except.pure, List.contains_iff_mem]
      by_cases hmem : s ∈ dag.successorsOf p
      · simp [hmem]
      · simp [hmem, link]

theorem names_attempt_addDependency (dag : DependencyGraph) (successor predecessor : String) :
    (dag.attempt (.addDependency successor predecessor)).names = dag.names := by
  rcases dag.attempt_addDependency successor predecessor with ⟨s, p, -, -, hresult⟩ | ⟨-, hresult⟩
  · rw [hresult]
    split
    · rfl
    · exact dag.names_link s p
  · rw [hresult]

theorem dependsOn_attempt_addDependency (hw : dag.WellFormed) {successor predecessor : String} :
    (dag.attempt (.addDependency successor predecessor)).DependsOn j i ↔
      dag.DependsOn j i ∨
        (dag.position successor = .ok j ∧ dag.position predecessor = .ok i) := by
  rcases dag.attempt_addDependency successor predecessor with
    ⟨s, p, hs, hp, hresult⟩ | ⟨hout, hresult⟩
  · rw [hresult, hs, hp, Except.ok.injEq, Except.ok.injEq]
    have hknown : s ∈ dag.successorsOf p ↔ dag.DependsOn s p := hw.mem_successorsOf_iff p s
    split
    next hmem =>
      refine (or_iff_left_of_imp ?_).symm
      rintro ⟨rfl, rfl⟩
      exact hknown.1 hmem
    next =>
      rw [DependsOn, predecessorsOf_link (lt_size_of_position hs)]
      by_cases hj : j = s
      · simp [hj, DependsOn, eq_comm]
      · simp [hj, Ne.symm hj, DependsOn]
  · rw [hresult]
    refine (or_iff_left ?_).symm
    rintro ⟨hs, hp⟩
    exact hout ⟨exists_position_iff.1 ⟨j, hs⟩, exists_position_iff.1 ⟨i, hp⟩⟩

end Attempt

theorem assemble_built (requests : List Request) : (assemble requests).Built := by
  induction requests using List.reverseRecOn with
  | nil => exact .empty
  | append_singleton requests request ih =>
    rw [assemble_snoc]
    exact built_attempt ih request

theorem names_assemble (requests : List Request) :
    (assemble requests).names = queries requests := by
  induction requests using List.reverseRecOn with
  | nil => rfl
  | append_singleton requests request ih =>
    rw [assemble_snoc]
    cases request with
    | addQuery name body => rw [names_attempt_addQuery, queries_snoc_addQuery, ih]
    | addDependency s p => rw [names_attempt_addDependency, queries_snoc_addDependency, ih]

/-- The batch has the dependencies that were asked for. -/
theorem requires_iff (requests : List Request) (s p : String) : Requires requests s p ↔
    ∃ j i, (assemble requests).DependsOn j i ∧ (assemble requests).nameOf j = s ∧
      (assemble requests).nameOf i = p := by
  induction requests using List.reverseRecOn with
  | nil => simp [Requires, DependsOn, predecessorsOf, assemble]
  | append_singleton requests request ih =>
    have hw := (assemble_built requests).wellFormed
    have hmem (name : String) : name ∈ queries requests ↔
        ∃ i, (assemble requests).position name = .ok i := by
      rw [exists_position_iff, names_assemble]
    rw [assemble_snoc]
    cases request with
    | addQuery name body =>
      -- A query that is there keeps its name.
      have hkept : ∀ i < (assemble requests).size,
          ((assemble requests).attempt (.addQuery name body)).nameOf i =
            (assemble requests).nameOf i := fun i hlt => by
        rw [nameOf_eq, nameOf_eq, names_attempt_addQuery]
        split
        · rfl
        · rw [List.getElem?_append_left (by rwa [length_names])]
      simp only [requires_snoc_addQuery, ih, dependsOn_attempt_addQuery]
      refine exists_congr fun j => exists_congr fun i => and_congr_right fun hdepends => ?_
      rw [hkept j (lt_size_of_mem_predecessorsOf hdepends), hkept i (hw.predecessor_lt hdepends)]
    | addDependency successor predecessor =>
      have hkept (i : Nat) :
          ((assemble requests).attempt (.addDependency successor predecessor)).nameOf i =
            (assemble requests).nameOf i := by
        rw [nameOf_eq, nameOf_eq, names_attempt_addDependency]
      simp only [requires_snoc_addDependency, ih, dependsOn_attempt_addDependency hw, hkept, hmem]
      constructor
      · rintro (⟨j, i, hdepends, hj, hi⟩ | ⟨rfl, rfl, ⟨j, hj⟩, ⟨i, hi⟩⟩)
        · exact ⟨j, i, .inl hdepends, hj, hi⟩
        · exact ⟨j, i, .inr ⟨hj, hi⟩, nameOf_of_position hj, nameOf_of_position hi⟩
      · rintro ⟨j, i, hdepends | ⟨hs, hp⟩, rfl, rfl⟩
        · exact .inl ⟨j, i, hdepends, rfl, rfl⟩
        · have hsameS := nameOf_of_position hs
          have hsameP := nameOf_of_position hp
          exact .inr ⟨hsameS, hsameP, ⟨j, hsameS ▸ hs⟩, ⟨i, hsameP ▸ hp⟩⟩

/-! ## Chains of dependencies -/

section Chains

variable {requests : List Request} {j : Nat} {name : String}

theorem Requires.exists_position {s p : String} (h : Requires requests s p)
    (hs : (assemble requests).nameOf j = s) (hlt : j < (assemble requests).size) :
    ∃ i, (assemble requests).DependsOn j i ∧ (assemble requests).nameOf i = p := by
  have hw := (assemble_built requests).wellFormed
  obtain ⟨k, i, hdepends, hk, hi⟩ := (requires_iff requests s p).1 h
  have hsame : k = j :=
    hw.nameOf_inj (lt_size_of_mem_predecessorsOf hdepends) hlt (hk.trans hs.symm)
  exact ⟨i, hsame ▸ hdepends, hi⟩

theorem transGen_requires_iff (hlt : j < (assemble requests).size) :
    TransGen (Requires requests) ((assemble requests).nameOf j) name ↔
      ∃ i, TransGen (assemble requests).DependsOn j i ∧ (assemble requests).nameOf i = name := by
  have hw := (assemble_built requests).wellFormed
  constructor
  · intro hchain
    induction hchain with
    | single h =>
      obtain ⟨i, hdepends, hi⟩ := h.exists_position rfl hlt
      exact ⟨i, .single hdepends, hi⟩
    | tail _ h ih =>
      obtain ⟨k, hchain, hk⟩ := ih
      obtain ⟨l, -, hlast⟩ := TransGen.tail'_iff.1 hchain
      obtain ⟨i, hdepends, hi⟩ := h.exists_position hk (hw.predecessor_lt hlast)
      exact ⟨i, hchain.tail hdepends, hi⟩
  · rintro ⟨i, hchain, rfl⟩
    exact hchain.lift _ fun a b hdepends => (requires_iff requests _ _).2 ⟨a, b, hdepends, rfl, rfl⟩

theorem transGen_requires_self_iff (hlt : j < (assemble requests).size) :
    TransGen (Requires requests) ((assemble requests).nameOf j) ((assemble requests).nameOf j) ↔
      TransGen (assemble requests).DependsOn j j := by
  have hw := (assemble_built requests).wellFormed
  rw [transGen_requires_iff hlt]
  constructor
  · rintro ⟨i, hchain, hsame⟩
    obtain ⟨k, -, hlast⟩ := TransGen.tail'_iff.1 hchain
    rwa [hw.nameOf_inj (hw.predecessor_lt hlast) hlt hsame] at hchain
  · exact fun hchain => ⟨j, hchain, rfl⟩

/-- Only a query of the batch can be in a dependency. -/
theorem exists_position_of_transGen {s : String} (hchain : TransGen (Requires requests) s name) :
    ∃ j < (assemble requests).size, (assemble requests).nameOf j = s := by
  obtain ⟨p, h, -⟩ := TransGen.head'_iff.1 hchain
  obtain ⟨j, i, hdepends, hj, -⟩ := (requires_iff requests s p).1 h
  exact ⟨j, lt_size_of_mem_predecessorsOf hdepends, hj⟩

/-- No query depends on itself by name exactly if none does by position. -/
theorem acyclic_assemble_iff : (assemble requests).Acyclic ↔
    ∀ name, ¬ TransGen (Requires requests) name name := by
  constructor
  · intro hacyclic name hcycle
    obtain ⟨j, hlt, rfl⟩ := exists_position_of_transGen hcycle
    exact hacyclic j ((transGen_requires_self_iff hlt).1 hcycle)
  · intro hacyclic j hcycle
    obtain ⟨i, hdepends, -⟩ := TransGen.head'_iff.1 hcycle
    have hlt := lt_size_of_mem_predecessorsOf hdepends
    exact hacyclic _ ((transGen_requires_self_iff hlt).2 hcycle)

end Chains

end DependencyGraph
end PathQuery

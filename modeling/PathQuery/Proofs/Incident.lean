import Mathlib.Data.List.Basic
import Mathlib.Data.List.Induction

/-!
# Numbered things that are attached to a vertex or a state

Edges are attached to vertices and transitions to states in the same way: the thing with number `i`
has an end `f i`, and whoever is that end lists the number.

* `incident count f v`: the numbers below `count` whose end is `v`, ascending;
* `mem_incident`, `pairwise_incident`: what is listed, and in which order;
* `incident_succ`, `incident_add`: the list after one thing more, and after several;
* `filterMap_incident`: the things themselves, in their order.
-/

namespace PathQuery

def incident (count : Nat) (f : Nat → Option Nat) (v : Nat) : List Nat :=
  (List.range count).filter (f · == some v)

theorem mem_incident {count : Nat} {f : Nat → Option Nat} {v i : Nat} :
    i ∈ incident count f v ↔ i < count ∧ f i = some v := by
  simp [incident]

theorem pairwise_incident {count : Nat} {f : Nat → Option Nat} {v : Nat} :
    (incident count f v).Pairwise (· < ·) :=
  List.pairwise_lt_range.filter _

theorem incident_congr {count : Nat} {f f' : Nat → Option Nat} {v v' : Nat}
    (h : ∀ i < count, f' i = some v' ↔ f i = some v) : incident count f' v' = incident count f v := by
  apply List.filter_congr
  intro i hi
  have := h i (List.mem_range.1 hi)
  rw [Bool.eq_iff_iff, beq_iff_eq, beq_iff_eq]
  exact this

theorem incident_eq_nil {count : Nat} {f : Nat → Option Nat} {v : Nat}
    (h : ∀ i < count, f i ≠ some v) : incident count f v = [] := by
  apply List.filter_eq_nil_iff.2
  intro i hi hiv
  exact h i (List.mem_range.1 hi) (beq_iff_eq.1 hiv)

theorem incident_add {m k : Nat} {f : Nat → Option Nat} {v : Nat} :
    incident (m + k) f v =
      incident m f v ++ (incident k (fun i => f (i + m)) v).map (· + m) := by
  have hshift : (fun i => m + i) = fun i => i + m := by
    funext i
    exact Nat.add_comm m i
  rw [incident, List.range_add, List.filter_append, hshift, List.filter_map]
  rfl

theorem incident_succ {n : Nat} {f f' : Nat → Option Nat} {u v : Nat} (hlast : f' n = some u)
    (hsame : ∀ i < n, f' i = f i) :
    incident (n + 1) f' v = incident n f v ++ if u = v then [n] else [] := by
  have hold : incident n f' v = incident n f v := by
    apply incident_congr
    intro i hi
    rw [hsame i hi]
  have hnew : incident 1 (fun i => f' (i + n)) v = if u = v then [0] else [] := by
    by_cases huv : u = v
    · simp [incident, hlast, huv, List.range_succ]
    · simp [incident, hlast, huv, List.range_succ]
  rw [incident_add, hold, hnew]
  by_cases huv : u = v
  · simp [huv]
  · simp [huv]

theorem filterMap_incident {α : Type} (xs : List α) (side : α → Nat) (v : Nat) :
    (incident xs.length (fun i => xs[i]?.map side) v).filterMap (xs[·]?) =
      xs.filter (side · == v) := by
  -- Numbers are given from the front, so the induction goes on at the end.
  induction xs using List.reverseRecOn with
  | nil => rfl
  | append_singleton xs x ih =>
    have hearlier : ∀ i < xs.length, (xs ++ [x])[i]? = xs[i]? :=
      fun i hi => List.getElem?_append_left hi
    have hlast : (xs ++ [x])[xs.length]? = some x := List.getElem?_concat_length
    have hread : (incident xs.length (fun i => xs[i]?.map side) v).filterMap ((xs ++ [x])[·]?) =
        xs.filter (side · == v) := by
      rw [← ih]
      refine List.filterMap_congr ?_
      intro i hi
      exact hearlier i (mem_incident.1 hi).1
    rw [List.length_append, List.length_singleton,
      incident_succ (congrArg (Option.map side) hlast)
        (fun i hi => congrArg (Option.map side) (hearlier i hi)),
      List.filterMap_append, hread, List.filter_append]
    by_cases hv : side x = v
    · simp [hv]
    · simp [hv]

end PathQuery

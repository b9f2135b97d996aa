/-!
# Sets of ids

Vertices, edges, states and interned names are numbered from zero.  A set of such numbers is the
strictly ascending list of its members, so equal sets are equal lists.

* `IdSet.insert`, `IdSet.union`, `IdSet.inter`, `IdSet.filter`: the operations;
* `mem_insert`, `mem_union`, `mem_inter`, `mem_filter`, `mem_ofList`, `mem_range`: each described
  by its members;
* `IdSet.ext`: a set is determined by its members.
-/

namespace PathQuery

structure IdSet where
  toList : List Nat
  ascending : toList.Pairwise (· < ·)
  deriving DecidableEq, Repr

namespace IdSet

instance : Membership Nat IdSet where
  mem s v := v ∈ s.toList

instance (v : Nat) (s : IdSet) : Decidable (v ∈ s) :=
  inferInstanceAs (Decidable (v ∈ s.toList))

theorem mem_def {v : Nat} {s : IdSet} : v ∈ s ↔ v ∈ s.toList := Iff.rfl

def contains (s : IdSet) (v : Nat) : Bool :=
  s.toList.contains v

def size (s : IdSet) : Nat :=
  s.toList.length

def isEmpty (s : IdSet) : Bool :=
  s.toList.isEmpty

/-! ## Construction -/

def empty : IdSet :=
  ⟨[], .nil⟩

def singleton (v : Nat) : IdSet :=
  ⟨[v], by simp⟩

/-- All numbers below a bound. -/
def range (n : Nat) : IdSet :=
  ⟨List.range n, List.pairwise_lt_range⟩

def insertAscending (v : Nat) : List Nat → List Nat
  | [] => [v]
  | w :: ws =>
    if v < w then v :: w :: ws
    else if v = w then w :: ws
    else w :: insertAscending v ws

theorem mem_insertAscending {v x : Nat} {ws : List Nat} :
    x ∈ insertAscending v ws ↔ x = v ∨ x ∈ ws := by
  induction ws with
  | nil => simp [insertAscending]
  | cons w ws ih =>
    simp only [insertAscending]
    split
    · simp
    · split
      · rename_i h
        subst h
        simp
      · simp only [List.mem_cons, ih]
        grind

theorem pairwise_insertAscending {v : Nat} {ws : List Nat} (h : ws.Pairwise (· < ·)) :
    (insertAscending v ws).Pairwise (· < ·) := by
  induction ws with
  | nil => simp [insertAscending]
  | cons w ws ih =>
    rw [List.pairwise_cons] at h
    simp only [insertAscending]
    split
    · rename_i hvw
      refine List.pairwise_cons.2 ⟨?_, List.pairwise_cons.2 h⟩
      intro x hx
      rcases List.mem_cons.1 hx with rfl | hx
      · exact hvw
      · exact Nat.lt_trans hvw (h.1 x hx)
    · split
      · exact List.pairwise_cons.2 h
      · refine List.pairwise_cons.2 ⟨?_, ih h.2⟩
        intro x hx
        rcases mem_insertAscending.1 hx with rfl | hx
        · omega
        · exact h.1 x hx

def insert (s : IdSet) (v : Nat) : IdSet :=
  ⟨insertAscending v s.toList, pairwise_insertAscending s.ascending⟩

def ofList (vs : List Nat) : IdSet :=
  vs.foldl insert empty

def union (s t : IdSet) : IdSet :=
  t.toList.foldl insert s

def filter (s : IdSet) (p : Nat → Bool) : IdSet :=
  ⟨s.toList.filter p, s.ascending.filter p⟩

def inter (s t : IdSet) : IdSet :=
  s.filter t.contains

/-! ## Members -/

@[simp] theorem contains_eq_true {s : IdSet} {v : Nat} : s.contains v = true ↔ v ∈ s := by
  simp [contains, mem_def]

@[simp] theorem not_mem_empty {v : Nat} : ¬ v ∈ empty := by
  simp [mem_def, empty]

@[simp] theorem mem_singleton {v w : Nat} : v ∈ singleton w ↔ v = w := by
  simp [mem_def, singleton]

@[simp] theorem mem_range {v n : Nat} : v ∈ range n ↔ v < n := by
  simp [mem_def, range]

@[simp] theorem mem_insert {s : IdSet} {v x : Nat} : x ∈ s.insert v ↔ x = v ∨ x ∈ s :=
  mem_insertAscending

theorem mem_foldl_insert {s : IdSet} {vs : List Nat} {x : Nat} :
    x ∈ vs.foldl insert s ↔ x ∈ s ∨ x ∈ vs := by
  induction vs generalizing s with
  | nil => simp
  | cons v vs ih =>
    simp only [List.foldl_cons, ih, mem_insert, List.mem_cons]
    grind

@[simp] theorem mem_ofList {vs : List Nat} {x : Nat} : x ∈ ofList vs ↔ x ∈ vs := by
  simp [ofList, mem_foldl_insert]

@[simp] theorem mem_union {s t : IdSet} {x : Nat} : x ∈ s.union t ↔ x ∈ s ∨ x ∈ t :=
  mem_foldl_insert

@[simp] theorem mem_filter {s : IdSet} {p : Nat → Bool} {x : Nat} :
    x ∈ s.filter p ↔ x ∈ s ∧ p x = true := by
  simp [mem_def, filter]

@[simp] theorem mem_inter {s t : IdSet} {x : Nat} : x ∈ s.inter t ↔ x ∈ s ∧ x ∈ t := by
  simp [inter]

theorem isEmpty_iff {s : IdSet} : s.isEmpty = true ↔ ∀ x, ¬ x ∈ s := by
  simp only [isEmpty, List.isEmpty_iff, List.eq_nil_iff_forall_not_mem, mem_def]

theorem not_isEmpty_iff {s : IdSet} : (!s.isEmpty) = true ↔ ∃ x, x ∈ s := by
  rw [Bool.not_eq_true', ← Bool.not_eq_true, isEmpty_iff]
  simp only [Classical.not_forall, Classical.not_not]

/-- Two ascending lists with the same members are the same list. -/
theorem eq_of_mem_iff : ∀ {vs ws : List Nat}, vs.Pairwise (· < ·) → ws.Pairwise (· < ·) →
    (∀ x, x ∈ vs ↔ x ∈ ws) → vs = ws
  | [], [], _, _, _ => rfl
  | [], w :: ws, _, _, h => absurd ((h w).2 (by simp)) (by simp)
  | v :: vs, [], _, _, h => absurd ((h v).1 (by simp)) (by simp)
  | v :: vs, w :: ws, hv, hw, h => by
    rw [List.pairwise_cons] at hv hw
    have hvw : v = w := by
      have h1 := (h v).1 (by simp)
      have h2 := (h w).2 (by simp)
      rcases List.mem_cons.1 h1 with rfl | h1
      · rfl
      · rcases List.mem_cons.1 h2 with rfl | h2
        · rfl
        · have := hw.1 v h1
          have := hv.1 w h2
          omega
    subst hvw
    have tails : ∀ x, x ∈ vs ↔ x ∈ ws := by
      intro x
      have := h x
      constructor
      · intro hx
        rcases List.mem_cons.1 (this.1 (by simp [hx])) with rfl | hx'
        · exact absurd (hv.1 x hx) (by omega)
        · exact hx'
      · intro hx
        rcases List.mem_cons.1 (this.2 (by simp [hx])) with rfl | hx'
        · exact absurd (hw.1 x hx) (by omega)
        · exact hx'
    rw [eq_of_mem_iff hv.2 hw.2 tails]

theorem ext {s t : IdSet} (h : ∀ x, x ∈ s ↔ x ∈ t) : s = t := by
  cases s with
  | mk vs hv =>
    cases t with
    | mk ws hw =>
      have : vs = ws := eq_of_mem_iff hv hw h
      subst this
      rfl

end IdSet

end PathQuery

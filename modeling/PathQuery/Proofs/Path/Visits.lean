import PathQuery.Path.Visits

/-!
# What was visited after each visit

* `Visits.getD_extend`: fillers make no difference to what is read;
* `Visits.find_insert`: a visit is found under its own pair, and changes nothing else.
-/

namespace PathQuery

namespace Visits

theorem getD_extend {α : Type} (xs : Array α) (place : Nat) (filler : α) (i : Nat) :
    (extend xs place filler)[i]?.getD filler = xs[i]?.getD filler := by
  simp only [extend, Array.getElem?_append, Array.getElem?_replicate]
  split
  · rfl
  · -- Beyond the array there is nothing, and a filler reads as nothing does.
    rename_i hi
    rw [Array.getElem?_eq_none (Nat.le_of_not_lt hi)]
    split
    · rfl
    · rfl

theorem lt_size_extend {α : Type} (xs : Array α) (place : Nat) (filler : α) :
    place < (extend xs place filler).size := by
  simp only [extend, Array.size_append, Array.size_replicate]
  lia

theorem find_eq (visits : Visits) (v : Nat) (s : StateId) :
    visits.find v s = ((visits.rows[v]?.getD #[])[s]?).getD none := by
  unfold find
  cases visits.rows[v]? with
  | none => rfl
  | some row =>
    change (row[s]?.bind id) = row[s]?.getD none
    cases row[s]? with
    | none => rfl
    | some entry => rfl

theorem find_insert (visits : Visits) (v w : Nat) (s x : StateId) (step : PathStep) :
    (visits.insert v s step).find w x = if w = v ∧ x = s then some step else visits.find w x := by
  rw [find_eq, find_eq, insert, Array.getElem?_modify]
  have hrow := getD_extend visits.rows v #[] w
  by_cases hw : w = v
  · subst hw
    rcases Array.getElem?_eq_some_iff.2 ⟨lt_size_extend visits.rows w #[], rfl⟩ with hget
    rw [hget, Option.getD_some] at hrow
    rw [if_pos rfl, hget, Option.map_some, Option.getD_some, hrow, Array.set!_eq_setIfInBounds,
      Array.getElem?_setIfInBounds]
    by_cases hx : x = s
    · subst hx
      rw [if_pos rfl, if_pos (lt_size_extend _ x none), if_pos ⟨rfl, rfl⟩]
      rfl
    · rw [if_neg (Ne.symm hx), if_neg (fun h => hx h.2)]
      exact getD_extend _ s none x
  · rw [if_neg (Ne.symm hw), if_neg (fun h => hw h.1), hrow]

theorem contains_eq_true {visits : Visits} {v : Nat} {s : StateId} :
    visits.contains v s = true ↔ ∃ step, visits.find v s = some step := by
  rw [contains, Option.isSome_iff_exists]

end Visits

end PathQuery

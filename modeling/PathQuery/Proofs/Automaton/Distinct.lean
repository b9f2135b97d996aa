import Mathlib.Data.List.Basic
import Mathlib.Data.List.Induction
import PathQuery.Automaton.Basic

/-!
# Classes of equal parallel transitions

Labels are for readers.  Two symbols are equal if they are so without their labels, and this is an
equivalence that matching and reversal respect.

* `Transition.unlabelled`: what equal parallel transitions have in common;
* `SymbolClasses`, `symbolClasses`: the laws of equality;
* `distinctTransitions_eq_firsts`: of every class the first transition is kept, in order;
* `any_distinctTransitions`, `distinctTransitions_filter`: questions that do not tell equal
  transitions apart may be asked before or after.
-/

namespace PathQuery

/-! ## Equality but for labels -/

namespace EdgeConstraint

def unlabelled (c : EdgeConstraint) : EdgeConstraint :=
  { c with label := [] }

theorem sameSymbol_iff {c d : EdgeConstraint} :
    c.sameSymbol d = true ↔ c.unlabelled = d.unlabelled := by
  rcases c with ⟨direction, types, roles, guard, label⟩
  rcases d with ⟨direction', types', roles', guard', label'⟩
  simp only [sameSymbol, unlabelled, Bool.and_eq_true, decide_eq_true_eq, mk.injEq, and_true,
    and_assoc]

end EdgeConstraint

namespace Symbol

def unlabelled : Symbol → Symbol
  | epsilon => epsilon
  | step c => step c.unlabelled
  | stepAlong c edge => stepAlong c.unlabelled edge

theorem same_iff {k l : Symbol} : k.same l = true ↔ k.unlabelled = l.unlabelled := by
  cases k with
  | epsilon => cases l <;> simp [same, unlabelled]
  | step c => cases l <;> simp [same, unlabelled, EdgeConstraint.sameSymbol_iff]
  | stepAlong c edge =>
    cases l <;> simp [same, unlabelled, EdgeConstraint.sameSymbol_iff, and_comm]

theorem unlabelled_reversed (k : Symbol) :
    k.reversed.unlabelled = k.unlabelled.reversed.unlabelled := by
  cases k <;> rfl

theorem isEpsilon_unlabelled (k : Symbol) : k.unlabelled.isEpsilon = k.isEpsilon := by
  cases k <;> rfl

theorem direction_unlabelled (k : Symbol) :
    k.unlabelled.constraint.map (·.direction) = k.constraint.map (·.direction) := by
  cases k <;> rfl

theorem matchesStructure_unlabelled (k : Symbol) (g : Graph) (e : Incidence) :
    k.unlabelled.constraint.map (·.matchesStructure g e) =
      k.constraint.map (·.matchesStructure g e) := by
  cases k <;> rfl

end Symbol

/-- What decides whether keys are equal is an equivalence. -/
theorem equivalence_of_key {α β : Type} {same : α → α → Bool} (key : α → β)
    (h : ∀ {x y}, same x y = true ↔ key x = key y) : Equivalence fun x y => same x y = true where
  refl _ := h.2 rfl
  symm hxy := h.2 (h.1 hxy).symm
  trans hxy hyz := h.2 ((h.1 hxy).trans (h.1 hyz))

/-- What equal parallel transitions have in common. -/
def Transition.unlabelled (t : Transition) : Transition :=
  { t with symbol := t.symbol.unlabelled }

/-- Equality of symbols is an equivalence.  Equal symbols match the same incidences, and their
reversals are equal. -/
structure SymbolClasses : Prop where
  equivalence : Equivalence fun k l => Symbol.same k l = true
  matches_eq {k l : Symbol} : k.same l = true → ∀ (g : Graph) (e : Incidence),
    k.constraint.map (·.matchesStructure g e) = l.constraint.map (·.matchesStructure g e)
  reversed {k l : Symbol} : k.same l = true → k.reversed.same l.reversed = true

theorem symbolClasses : SymbolClasses where
  equivalence := equivalence_of_key Symbol.unlabelled Symbol.same_iff
  matches_eq {k l} h g e := by
    rw [← k.matchesStructure_unlabelled, Symbol.same_iff.1 h, l.matchesStructure_unlabelled]
  reversed {k l} h := by
    rw [Symbol.same_iff, k.unlabelled_reversed, Symbol.same_iff.1 h, ← l.unlabelled_reversed]

namespace Automaton

theorem sameTransition_iff {t u : Transition} :
    sameTransition t u = true ↔ t.unlabelled = u.unlabelled := by
  rcases t with ⟨source, target, symbol⟩
  rcases u with ⟨source', target', symbol'⟩
  simp only [sameTransition, Transition.unlabelled, Bool.and_eq_true, beq_iff_eq, Symbol.same_iff,
    Transition.mk.injEq, and_assoc]

theorem sameTransition_equivalence : Equivalence fun t u => sameTransition t u = true :=
  equivalence_of_key Transition.unlabelled sameTransition_iff

theorem ends_eq_of_same {t u : Transition} (h : sameTransition t u = true) :
    t.source = u.source ∧ t.target = u.target := by
  simp only [sameTransition, Bool.and_eq_true, beq_iff_eq] at h
  exact h.1

/-! ## The first of every class -/

theorem distinctTransitions_append_singleton (ts : List Transition) (t : Transition) :
    distinctTransitions (ts ++ [t]) =
      if (distinctTransitions ts).any (sameTransition · t) then distinctTransitions ts
      else distinctTransitions ts ++ [t] := by
  rw [distinctTransitions, List.foldl_append]
  rfl

-- Transitions are looked at from the front, so all inductions go on at the end.

theorem distinctTransitions_sublist (ts : List Transition) :
    (distinctTransitions ts).Sublist ts := by
  induction ts using List.reverseRecOn with
  | nil => exact .slnil
  | append_singleton ts t ih =>
    rw [distinctTransitions_append_singleton]
    split
    · exact ih.trans (List.sublist_append_left ts [t])
    · exact ih.append_right [t]

/-- Nothing is dropped that has no equal. -/
theorem exists_sameTransition {ts : List Transition} {t : Transition} (ht : t ∈ ts) :
    ∃ u ∈ distinctTransitions ts, sameTransition u t = true := by
  induction ts using List.reverseRecOn with
  | nil => exact absurd ht List.not_mem_nil
  | append_singleton ts t' ih =>
    rw [distinctTransitions_append_singleton]
    split
    · rename_i hknown
      rcases List.mem_append.1 ht with ht | ht
      · exact ih ht
      · rw [List.mem_singleton.1 ht]
        exact List.any_eq_true.1 hknown
    · rcases List.mem_append.1 ht with ht | ht
      · rcases ih ht with ⟨u, hu, hsame⟩
        exact ⟨u, List.mem_append_left _ hu, hsame⟩
      · exact ⟨t, List.mem_append_right _ ht, sameTransition_equivalence.refl t⟩

theorem isEmpty_distinctTransitions (ts : List Transition) :
    (distinctTransitions ts).isEmpty = ts.isEmpty := by
  rw [Bool.eq_iff_iff, List.isEmpty_iff, List.isEmpty_iff]
  constructor
  · intro hnone
    refine List.eq_nil_iff_forall_not_mem.2 ?_
    intro t ht
    rcases exists_sameTransition ht with ⟨u, hu, _⟩
    rw [hnone] at hu
    exact absurd hu List.not_mem_nil
  · rintro rfl
    rfl

/-- The question does not tell equal parallel transitions apart. -/
def Unlabelled (p : Transition → Bool) : Prop :=
  ∀ t, p t.unlabelled = p t

theorem Unlabelled.eq_of_same {p : Transition → Bool} (hp : Unlabelled p) {t u : Transition}
    (h : sameTransition t u = true) : p t = p u := by
  rw [← hp t, sameTransition_iff.1 h, hp u]

theorem unlabelled_same (t : Transition) : Unlabelled (sameTransition · t) := by
  intro u
  rw [Bool.eq_iff_iff, sameTransition_iff, sameTransition_iff]
  rcases u with ⟨source, target, symbol⟩
  cases symbol <;> rfl

section Questions

variable {p : Transition → Bool} (hp : Unlabelled p)
include hp

theorem any_distinctTransitions (ts : List Transition) :
    (distinctTransitions ts).any p = ts.any p := by
  rw [Bool.eq_iff_iff, List.any_eq_true, List.any_eq_true]
  constructor
  · rintro ⟨t, ht, hpt⟩
    exact ⟨t, (distinctTransitions_sublist ts).subset ht, hpt⟩
  · rintro ⟨t, ht, hpt⟩
    rcases exists_sameTransition ht with ⟨u, hu, hsame⟩
    exact ⟨u, hu, (hp.eq_of_same hsame).trans hpt⟩

theorem all_distinctTransitions (ts : List Transition) :
    (distinctTransitions ts).all p = ts.all p := by
  have hnot : Unlabelled fun t => !p t := fun t => congrArg not (hp t)
  rw [List.all_eq_not_any_not, any_distinctTransitions hnot, ← List.all_eq_not_any_not]

/-- A part of the list that holds whole classes is thinned by itself. -/
theorem distinctTransitions_filter (ts : List Transition) :
    distinctTransitions (ts.filter p) = (distinctTransitions ts).filter p := by
  induction ts using List.reverseRecOn with
  | nil => rfl
  | append_singleton ts t ih =>
    have hrest : distinctTransitions (ts ++ [t]) =
        if ts.any (sameTransition · t) then distinctTransitions ts
        else distinctTransitions ts ++ [t] := by
      rw [distinctTransitions_append_singleton, any_distinctTransitions (unlabelled_same t)]
    rw [List.filter_append, hrest]
    cases hpt : p t with
    | false =>
      have hout : [t].filter p = [] := List.filter_eq_nil_iff.2 (by simp [hpt])
      rw [hout, List.append_nil, ih]
      split
      · rfl
      · rw [List.filter_append, hout, List.append_nil]
    | true =>
      have hin : [t].filter p = [t] := List.filter_eq_self.2 (by simp [hpt])
      -- All transitions that are equal to this one have passed the question too.
      have hknown : (ts.filter p).any (sameTransition · t) = ts.any (sameTransition · t) := by
        rw [Bool.eq_iff_iff, List.any_eq_true, List.any_eq_true]
        refine exists_congr fun u => and_congr_left fun hsame => ?_
        rw [List.mem_filter, hp.eq_of_same hsame, hpt]
        exact and_iff_left rfl
      rw [hin, distinctTransitions_append_singleton, any_distinctTransitions (unlabelled_same t),
        hknown, ih]
      split
      · rfl
      · rw [List.filter_append, hin]

end Questions

theorem distinctTransitions_distinctTransitions (ts : List Transition) :
    distinctTransitions (distinctTransitions ts) = distinctTransitions ts := by
  induction ts using List.reverseRecOn with
  | nil => rfl
  | append_singleton ts t ih =>
    rw [distinctTransitions_append_singleton]
    split
    · exact ih
    · rename_i hnew
      rw [distinctTransitions_append_singleton, ih, if_neg hnew]

/-- The transition with a number, unless an earlier one is equal to it. -/
def firstAt (ts : List Transition) (i : Nat) : Option Transition :=
  ts[i]?.filter fun t => !(ts.take i).any (sameTransition · t)

/-- The transitions that are equal to no earlier one, in their order. -/
def firsts (ts : List Transition) : List Transition :=
  (List.range ts.length).filterMap (firstAt ts)

theorem firsts_append_singleton (ts : List Transition) (t : Transition) :
    firsts (ts ++ [t]) = if ts.any (sameTransition · t) then firsts ts else firsts ts ++ [t] := by
  have hearlier : ∀ i ∈ List.range ts.length, firstAt (ts ++ [t]) i = firstAt ts i := by
    intro i hi
    have hlt : i < ts.length := List.mem_range.1 hi
    rw [firstAt, List.getElem?_append_left hlt, List.take_append_of_le_length (Nat.le_of_lt hlt),
      firstAt]
  have hlast : firstAt (ts ++ [t]) ts.length =
      if ts.any (sameTransition · t) then none else some t := by
    rw [firstAt, List.getElem?_concat_length, List.take_left, Option.filter_some]
    cases ts.any (sameTransition · t) <;> rfl
  rw [firsts, List.length_append, List.length_singleton, List.range_succ, List.filterMap_append,
    List.filterMap_congr hearlier, ← firsts]
  split
  · rename_i hknown
    rw [if_pos hknown] at hlast
    rw [List.filterMap_cons_none hlast, List.filterMap_nil, List.append_nil]
  · rename_i hnew
    rw [if_neg hnew] at hlast
    rw [List.filterMap_cons_some hlast, List.filterMap_nil]

theorem distinctTransitions_eq_firsts (ts : List Transition) :
    distinctTransitions ts = firsts ts := by
  induction ts using List.reverseRecOn with
  | nil => rfl
  | append_singleton ts t ih =>
    rw [distinctTransitions_append_singleton, any_distinctTransitions (unlabelled_same t), ih,
      firsts_append_singleton]

end Automaton
end PathQuery

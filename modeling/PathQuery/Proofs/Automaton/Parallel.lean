import PathQuery.Proofs.Automaton.Distinct
import PathQuery.Proofs.Automaton.Made

/-!
# Dropping parallel transitions

Of every class of equal parallel transitions the first one is kept.  All transitions are numbered
anew and all lists are made again; nothing else about the automaton changes.

* `Automaton.withoutLinks`: all of an automaton but its transitions, its lists and its table;
* `Automaton.Thinned`: the second automaton is the first one without repeated transitions;
* `Intact.thinned`: so it is with the automaton whose parallel transitions were dropped;
* `Thinned.outTransitions_eq`, `Thinned.epsilonClosure_eq`, `Thinned.validate_eq`: what this means
  for traversals and for the check.
-/

namespace PathQuery
namespace Automaton

variable {a b : Automaton}

/-! ## All but the links -/

/-- Everything but the transitions, the lists of them and the kept closures. -/
def withoutLinks (a : Automaton) : Automaton :=
  a.stripped (·.isFinal)

@[simp] theorem withoutLinks_withoutLinks (a : Automaton) :
    a.withoutLinks.withoutLinks = a.withoutLinks := by
  simp [withoutLinks, stripped, Function.comp_def]

@[simp] theorem stateCount_withoutLinks (a : Automaton) :
    a.withoutLinks.stateCount = a.stateCount := by
  simp [stateCount, withoutLinks, stripped]

@[simp] theorem isFinal_withoutLinks (a : Automaton) (s : StateId) :
    a.withoutLinks.isFinal s = a.isFinal s := by
  rw [isFinal, isFinal, withoutLinks, stripped, Array.getElem?_map, Option.any_map]

@[simp] theorem finals_withoutLinks (a : Automaton) : a.withoutLinks.finals = a.finals := by
  simp [finals, withoutLinks, stripped, List.filter_map, Function.comp_def]

@[simp] theorem initial_withoutLinks (a : Automaton) : a.withoutLinks.initial = a.initial := rfl

@[simp] theorem fault_withoutLinks (a : Automaton) : a.withoutLinks.fault = a.fault := rfl

theorem withoutLinks_link (a : Automaton) (source target : StateId) (symbol : Symbol) :
    (a.link source target symbol).withoutLinks = a.withoutLinks := by
  have hstates : (a.link source target symbol).withoutLinks.states = a.withoutLinks.states := by
    apply Array.ext_getElem?
    intro s
    simp only [withoutLinks, stripped, Array.getElem?_map, getElem?_states_link, Option.map_map]
    cases a.states[s]? <;> rfl
  -- Nothing but the states could differ.
  exact congrArg (fun states => { a.withoutLinks with states }) hstates

/-- Building steps that can be made add their transitions and change nothing else. -/
theorem foldl_addTransition_eq {ts : List Transition}
    (hts : ∀ t ∈ ts, a.Addable t.source t.target t.symbol) :
    (ts.foldl (fun b t => b.addTransition t.source t.target t.symbol) a).transitions.toList =
        a.transitions.toList ++ ts ∧
      (ts.foldl (fun b t => b.addTransition t.source t.target t.symbol) a).withoutLinks =
        a.withoutLinks := by
  induction ts generalizing a with
  | nil => exact ⟨(List.append_nil _).symm, rfl⟩
  | cons t ts ih =>
    have hstep := addTransition_eq_link (hts t List.mem_cons_self)
    have hrest : ∀ u ∈ ts, (a.link t.source t.target t.symbol).Addable u.source u.target
        u.symbol := by
      intro u hu
      rw [Addable, stateCount_link]
      exact hts u (List.mem_cons_of_mem t hu)
    rcases ih hrest with ⟨htransitions, hlinks⟩
    rw [List.foldl_cons, hstep]
    refine ⟨?_, hlinks.trans (withoutLinks_link a _ _ _)⟩
    rw [htransitions, transitions_link, Array.toList_push, List.append_assoc]
    rfl

/-! ## Thinned automata -/

structure Thinned (a b : Automaton) : Prop where
  left : a.Intact
  right : b.Intact
  withoutLinks_eq : b.withoutLinks = a.withoutLinks
  transitions_eq : b.transitions.toList = distinctTransitions a.transitions.toList

theorem Intact.addable (ha : a.Intact) {t : Transition} (ht : t ∈ a.transitions) :
    a.Addable t.source t.target t.symbol :=
  ⟨ha.source_lt ht, ha.target_lt ht, ha.no_loop ht⟩

theorem Intact.thinned (ha : a.Intact) : a.Thinned a.dedupTransitions.2 := by
  have hsublist := distinctTransitions_sublist a.transitions.toList
  have hkept : ∀ t ∈ distinctTransitions a.transitions.toList,
      a.withoutLinks.Addable t.source t.target t.symbol := by
    intro t ht
    rw [Addable, stateCount_withoutLinks]
    exact ha.addable (Array.mem_toList_iff.1 (hsublist.subset ht))
  have hboth : a.dedupTransitions.2.transitions.toList =
        distinctTransitions a.transitions.toList ∧
      a.dedupTransitions.2.withoutLinks = a.withoutLinks := by
    rw [dedupTransitions_apply]
    split
    · rename_i hle
      -- As many are kept as there are, so it is all of them.
      exact ⟨(hsublist.eq_of_length_le hle).symm, rfl⟩
    · rcases foldl_addTransition_eq hkept with ⟨htransitions, hlinks⟩
      exact ⟨htransitions, hlinks.trans (withoutLinks_withoutLinks a)⟩
  exact ⟨ha, ha.dedupTransitions, hboth.2, hboth.1⟩

/-- What leaves a state, in the order of the numbers. -/
theorem Intact.outTransitions_eq (ha : a.Intact) (s : StateId) :
    a.outTransitions s = a.transitions.toList.filter (·.source == s) := by
  have hlist : (a.leaving s).filterMap (a.transitions[·]?) =
      a.transitions.toList.filter (·.source == s) := by
    rw [← filterMap_incident, Array.length_toList]
    simp only [Array.getElem?_toList]
    rfl
  rw [← hlist, outTransitions]
  cases hs : a.states[s]? with
  | none =>
    -- There is no such state, so nothing leaves it.
    have hempty : a.leaving s = [] := by
      refine incident_eq_nil ?_
      intro i _ hi
      have hlt : s < a.stateCount := Indexed.sourceAt_lt (a := a.restarted) ha.toIndexed hi
      exact Nat.not_lt.2 (Array.getElem?_eq_none_iff.1 hs) hlt
    rw [hempty]
    rfl
  | some state =>
    have hout : state.out = a.leaving s := ha.out_eq hs
    simp only [hout]

theorem Intact.epsilonClosure_eq_empty (ha : a.Intact) {s : StateId} (hs : a.stateCount ≤ s) :
    a.epsilonClosure s = .empty := by
  have htable : a.closureTable = a.states.map fun state => a.closureOf state.id :=
    closureTable_eq (a := a.restarted) ha.toIndexed
  have hnone : a.states[s]? = none := Array.getElem?_eq_none_iff.2 hs
  rw [epsilonClosure, htable, Array.getElem?_map, hnone]
  rfl

theorem Intact.transitionFaults_eq_nil (ha : a.Intact) : a.transitionFaults = [] :=
  Automaton.transitionFaults_eq_nil (a := a.restarted) ha

theorem Intact.indexed (ha : a.Intact) (hinitial : a.initial < a.stateCount) : a.Indexed :=
  { ha.toIndexed with initial_lt := hinitial }

namespace Thinned

variable (h : Thinned a b)
include h

theorem stateCount_eq : b.stateCount = a.stateCount := by
  rw [← stateCount_withoutLinks b, h.withoutLinks_eq, stateCount_withoutLinks]

theorem isFinal_eq (s : StateId) : b.isFinal s = a.isFinal s := by
  rw [← isFinal_withoutLinks b, h.withoutLinks_eq, isFinal_withoutLinks]

theorem finals_eq : b.finals = a.finals := by
  rw [← finals_withoutLinks b, h.withoutLinks_eq, finals_withoutLinks]

theorem states_eq : (b.states.map fun s => (s.id, s.serial, s.isFinal)) =
    a.states.map fun s => (s.id, s.serial, s.isFinal) := by
  have hmap : ∀ c : Automaton, (c.withoutLinks.states.map fun s => (s.id, s.serial, s.isFinal)) =
      c.states.map fun s => (s.id, s.serial, s.isFinal) := by
    intro c
    rw [withoutLinks, stripped, Array.map_map]
    rfl
  rw [← hmap b, h.withoutLinks_eq, hmap]

theorem initial_eq : b.initial = a.initial := by
  rw [← initial_withoutLinks b, h.withoutLinks_eq, initial_withoutLinks]

theorem fault_eq : b.fault = a.fault := by
  rw [← fault_withoutLinks b, h.withoutLinks_eq, fault_withoutLinks]

theorem missing_eq (s : StateId) : b.missing s = a.missing s := by
  rw [missing, missing, h.stateCount_eq]

theorem mem_transitions {t : Transition} (ht : t ∈ b.transitions) : t ∈ a.transitions := by
  rw [← Array.mem_toList_iff, h.transitions_eq] at ht
  exact Array.mem_toList_iff.1 ((distinctTransitions_sublist _).subset ht)

theorem exists_same {t : Transition} (ht : t ∈ a.transitions) :
    ∃ u ∈ b.transitions, sameTransition u t = true := by
  rcases exists_sameTransition (Array.mem_toList_iff.2 ht) with ⟨u, hu, hsame⟩
  rw [← h.transitions_eq, Array.mem_toList_iff] at hu
  exact ⟨u, hu, hsame⟩

theorem outTransitions_eq (s : StateId) :
    b.outTransitions s = distinctTransitions (a.outTransitions s) := by
  have hsource : Unlabelled (·.source == s) := fun _ => rfl
  rw [h.right.outTransitions_eq, h.left.outTransitions_eq, h.transitions_eq,
    distinctTransitions_filter hsource]

/-! ### Closures -/

theorem bridged_eq : b.Bridged = a.Bridged := by
  funext s t
  refine propext ⟨h.mem_transitions, ?_⟩
  intro ht
  rcases h.exists_same ht with ⟨⟨source, target, symbol⟩, hu, hsame⟩
  obtain ⟨rfl, rfl⟩ := ends_eq_of_same hsame
  -- Nothing but the empty symbol is equal to it.
  cases symbol with
  | epsilon => exact hu
  | step c => simp [sameTransition, Symbol.same] at hsame
  | stepAlong c edge => simp [sameTransition, Symbol.same] at hsame

theorem epsilonClosure_eq (s : StateId) : b.epsilonClosure s = a.epsilonClosure s := by
  by_cases hs : s < a.stateCount
  · have hs' : s < b.stateCount := h.stateCount_eq ▸ hs
    apply IdSet.ext
    intro t
    rw [(h.right.exactClosure hs').mem_iff, (h.left.exactClosure hs).mem_iff, h.bridged_eq]
  · -- There are as many states, so it is missing on both sides.
    have hs' : ¬ s < b.stateCount := h.stateCount_eq ▸ hs
    rw [h.left.epsilonClosure_eq_empty (Nat.not_lt.1 hs),
      h.right.epsilonClosure_eq_empty (Nat.not_lt.1 hs')]

theorem withClosures : a.withClosures.Thinned b.withClosures where
  left := h.left.withClosures
  right := h.right.withClosures
  withoutLinks_eq := h.withoutLinks_eq
  transitions_eq := h.transitions_eq

/-! ### The check -/

theorem linked_eq : b.Linked = a.Linked := by
  funext s t
  refine propext ⟨?_, ?_⟩
  · rintro ⟨symbol, ht⟩
    exact ⟨symbol, h.mem_transitions ht⟩
  · rintro ⟨symbol, ht⟩
    rcases h.exists_same ht with ⟨⟨source, target, symbol'⟩, hu, hsame⟩
    obtain ⟨rfl, rfl⟩ := ends_eq_of_same hsame
    exact ⟨symbol', hu⟩

theorem validate_eq : b.validate = a.validate := by
  rw [validate, validate, h.stateCount_eq, h.initial_eq, h.finals_eq,
    h.left.transitionFaults_eq_nil, h.right.transitionFaults_eq_nil]
  -- Final states are searched for only from an initial state that exists.
  split
  · rfl
  · rename_i hinitial
    have ha : a.Indexed := h.left.indexed (Nat.not_le.1 hinitial)
    have hb : b.Indexed := h.right.indexed (by
      rw [h.initial_eq, h.stateCount_eq]
      exact Nat.not_le.1 hinitial)
    have hreached : ∀ f, b.reachableStates.contains f = a.reachableStates.contains f := by
      intro f
      rw [Bool.eq_iff_iff, List.contains_iff_mem, List.contains_iff_mem, mem_reachableStates hb,
        mem_reachableStates ha, Leads, Leads, h.linked_eq, h.initial_eq]
    simp only [hreached]

/-! ### Once more -/

theorem dedupTransitions_eq : b.dedupTransitions = (0, b) := by
  have hall : distinctTransitions b.transitions.toList = b.transitions.toList := by
    rw [h.transitions_eq, distinctTransitions_distinctTransitions]
  have hnone : b.transitions.size - (distinctTransitions b.transitions.toList).length = 0 := by
    rw [hall, Array.length_toList, Nat.sub_self]
  unfold dedupTransitions
  exact if_pos hnone

end Thinned

theorem dedupTransitions_fst (a : Automaton) : a.dedupTransitions.1 =
    a.transitions.size - (distinctTransitions a.transitions.toList).length := by
  unfold dedupTransitions
  dsimp only
  split
  · rename_i hnone
    exact hnone.symm
  · rfl

/-- What was dropped and what is left are all transitions. -/
theorem Intact.removed_add_size (ha : a.Intact) :
    a.dedupTransitions.1 + a.dedupTransitions.2.transitions.size = a.transitions.size := by
  have hleft : a.dedupTransitions.2.transitions.size =
      (distinctTransitions a.transitions.toList).length := by
    rw [← ha.thinned.transitions_eq, Array.length_toList]
  have hle := (distinctTransitions_sublist a.transitions.toList).length_le
  rw [Array.length_toList] at hle
  rw [dedupTransitions_fst, hleft]
  exact Nat.sub_add_cancel hle

end Automaton
end PathQuery

import Mathlib.Data.List.Basic
import PathQuery.Automaton.Closure
import PathQuery.Automaton.Compose
import PathQuery.Proofs.Incident

/-!
# Well-formed automata

A state lists the transitions at it, and a table of closures can be kept; both repeat what the
transitions say.

* `Automaton.Indexed`: states are numbered by their places, all numbers exist, and what leaves a
  state and the table are right;
* `Automaton.WellFormed`: what enters a state is right too, no empty transition links a state with
  itself, and no building step has failed;
* `attached_link`, `attached_absorb_of_lt`, `attached_absorb_add`: which transitions are at a state
  after a building step;
* `WellFormed.pushState`, `WellFormed.setFinal`, `WellFormed.setInitial`,
  `WellFormed.addTransition`, `WellFormed.absorb`: what the building steps keep.

The other lemmas say what each step does to the transitions, the final states and the counts.
-/

namespace PathQuery
namespace Automaton

def sourceAt (a : Automaton) (i : Nat) : Option StateId :=
  a.transitions[i]?.map (·.source)

def targetAt (a : Automaton) (i : Nat) : Option StateId :=
  a.transitions[i]?.map (·.target)

/-- The transitions that leave a state. -/
def leaving (a : Automaton) (s : StateId) : List Nat :=
  incident a.transitions.size a.sourceAt s

/-- The transitions that enter a state. -/
def entering (a : Automaton) (s : StateId) : List Nat :=
  incident a.transitions.size a.targetAt s

/-- What a traversal relies on. -/
structure Indexed (a : Automaton) : Prop where
  id_eq {s : StateId} {state : State} : a.states[s]? = some state → state.id = s
  out_eq {s : StateId} {state : State} : a.states[s]? = some state → state.out = a.leaving s
  source_lt {t : Transition} : t ∈ a.transitions → t.source < a.stateCount
  target_lt {t : Transition} : t ∈ a.transitions → t.target < a.stateCount
  initial_lt : a.initial < a.stateCount
  closures_eq {table : Array IdSet} : a.closures = some table →
    table = a.states.map fun state => a.closureOf state.id

structure WellFormed (a : Automaton) : Prop extends Indexed a where
  inc_eq {s : StateId} {state : State} : a.states[s]? = some state → state.inc = a.entering s
  no_loop {t : Transition} : t ∈ a.transitions → t.symbol.isEpsilon = true → t.source ≠ t.target
  fault_eq : a.fault = none

/-! ## Building steps -/

/-- The automaton with one more state, which is linked to nothing and not final. -/
def pushState (a : Automaton) (serial : Nat) : Automaton :=
  { a with
    states := a.states.push { id := a.states.size, serial, isFinal := false, out := [], inc := [] }
    closures := none }

section Observations

variable (a b : Automaton) (n : Nat) (s x : StateId)

@[simp] theorem stateCount_pushState : (a.pushState n).stateCount = a.stateCount + 1 := by
  simp [stateCount, pushState]

@[simp] theorem transitions_pushState : (a.pushState n).transitions = a.transitions := rfl

@[simp] theorem initial_pushState : (a.pushState n).initial = a.initial := rfl

@[simp] theorem fault_pushState : (a.pushState n).fault = a.fault := rfl

@[simp] theorem isFinal_pushState : (a.pushState n).isFinal x = a.isFinal x := by
  simp only [isFinal, pushState, Array.getElem?_push]
  split
  · rename_i h
    simp [h]
  · rfl

@[simp] theorem stateCount_setFinal (isFinal : Bool) :
    (a.setFinal s isFinal).stateCount = a.stateCount := by
  simp [stateCount, setFinal]

@[simp] theorem transitions_setFinal (isFinal : Bool) :
    (a.setFinal s isFinal).transitions = a.transitions := rfl

@[simp] theorem initial_setFinal (isFinal : Bool) :
    (a.setFinal s isFinal).initial = a.initial := rfl

@[simp] theorem fault_setFinal (isFinal : Bool) : (a.setFinal s isFinal).fault = a.fault := rfl

theorem isFinal_setFinal {isFinal : Bool} (hs : s < a.stateCount) :
    (a.setFinal s isFinal).isFinal x = if x = s then isFinal else a.isFinal x := by
  simp only [stateCount] at hs
  simp only [Automaton.isFinal, setFinal, Array.getElem?_modify]
  by_cases hx : x = s
  · subst hx
    simp [hs]
  · simp [hx, Ne.symm hx]

@[simp] theorem stateCount_setInitial : (a.setInitial s).stateCount = a.stateCount := rfl

@[simp] theorem transitions_setInitial : (a.setInitial s).transitions = a.transitions := rfl

@[simp] theorem initial_setInitial : (a.setInitial s).initial = s := rfl

@[simp] theorem isFinal_setInitial : (a.setInitial s).isFinal x = a.isFinal x := rfl

variable (source target : StateId) (symbol : Symbol)

@[simp] theorem stateCount_link : (a.link source target symbol).stateCount = a.stateCount := by
  simp [stateCount, link]

@[simp] theorem transitions_link :
    (a.link source target symbol).transitions = a.transitions.push ⟨source, target, symbol⟩ := rfl

@[simp] theorem initial_link : (a.link source target symbol).initial = a.initial := rfl

theorem getElem?_states_link : (a.link source target symbol).states[s]? =
    a.states[s]?.map fun state =>
      { state with
        out := state.out ++ if source = s then [a.transitions.size] else []
        inc := state.inc ++ if target = s then [a.transitions.size] else [] } := by
  simp only [link, Array.getElem?_modify]
  by_cases hs : source = s
  · by_cases ht : target = s
    · simp [hs, ht, Function.comp_def]
    · simp [hs, ht]
  · by_cases ht : target = s
    · simp [hs, ht]
    · simp [hs, ht]

@[simp] theorem isFinal_link : (a.link source target symbol).isFinal x = a.isFinal x := by
  simp [isFinal, getElem?_states_link]
  cases a.states[x]? <;> rfl

@[simp] theorem stateCount_absorb : (a.absorb b).stateCount = a.stateCount + b.stateCount := by
  simp [stateCount, absorb]

@[simp] theorem initial_absorb : (a.absorb b).initial = a.initial := rfl

theorem mem_transitions_absorb {t : Transition} : t ∈ (a.absorb b).transitions ↔
    t ∈ a.transitions ∨ ∃ u ∈ b.transitions, shiftTransition a.stateCount u = t := by
  simp [absorb, stateCount]

theorem isFinal_absorb : (a.absorb b).isFinal x =
    if x < a.stateCount then a.isFinal x else b.isFinal (x - a.stateCount) := by
  simp only [isFinal, absorb, stateCount, Array.getElem?_append]
  by_cases hx : x < a.states.size
  · simp [hx]
  · simp only [hx, if_false, Array.getElem?_map]
    cases b.states[x - a.states.size]? <;> rfl

end Observations

/-- A transition between existing states that does not link a state with itself for nothing. -/
def Addable (a : Automaton) (source target : StateId) (symbol : Symbol) : Prop :=
  source < a.stateCount ∧ target < a.stateCount ∧ (symbol.isEpsilon = true → source ≠ target)

theorem addTransition_eq_link {a : Automaton} {source target : StateId} {symbol : Symbol}
    (h : a.Addable source target symbol) :
    a.addTransition source target symbol = a.link source target symbol := by
  have hfault : a.linkFault source target symbol = none := by
    rcases h with ⟨hs, ht, hloop⟩
    unfold linkFault
    split
    · rename_i hself
      simp only [Bool.and_eq_true, beq_iff_eq] at hself
      exact absurd hself.2 (hloop hself.1)
    · simp [missing, hs, ht]
  simp [addTransition, hfault]

/-! ## Which transitions are at a state

What leaves a state and what enters it are found in one way, by one of a transition's ends. The
lemmas below are about any end that is renumbered as the states are. -/

/-- The transitions that have a state at one end; `leaving` and `entering` are the two cases. -/
def attached (a : Automaton) (side : Transition → StateId) (s : StateId) : List Nat :=
  incident a.transitions.size (fun i => a.transitions[i]?.map side) s

theorem attached_link (a : Automaton) (s source target : StateId) (symbol : Symbol)
    (side : Transition → StateId) : (a.link source target symbol).attached side s =
      a.attached side s ++
        if side ⟨source, target, symbol⟩ = s then [a.transitions.size] else [] := by
  rw [attached, transitions_link, Array.size_push]
  refine incident_succ ?_ ?_
  · simp
  · intro i hi
    simp [Array.getElem?_push, Nat.ne_of_lt hi]

section Absorb

variable {a b : Automaton} {side : Transition → StateId}

theorem attached_absorb_eq_append (s : StateId) : (a.absorb b).attached side s =
    a.attached side s ++
      (incident b.transitions.size
        (fun i => b.transitions[i]?.map fun t => side (shiftTransition a.stateCount t)) s).map
          (· + a.transitions.size) := by
  have hsize : (a.absorb b).transitions.size = a.transitions.size + b.transitions.size := by
    simp [absorb]
  rw [attached, attached, hsize, incident_add]
  congr 1
  · apply incident_congr
    intro i hi
    simp [absorb, Array.getElem?_append, hi]
  · congr 1
    apply incident_congr
    intro i _
    have hi : ¬ i + a.transitions.size < a.transitions.size := by
      lia
    simp [absorb, Array.getElem?_append, stateCount, hi, Option.map_map, Function.comp_def]

/-- The first automaton's states keep what is at them. -/
theorem attached_absorb_of_lt (hside : ∀ t, side (shiftTransition a.stateCount t) =
    side t + a.stateCount) {s : StateId} (hs : s < a.stateCount) :
    (a.absorb b).attached side s = a.attached side s := by
  have hnone : incident b.transitions.size
      (fun i => b.transitions[i]?.map fun t => side (shiftTransition a.stateCount t)) s = [] := by
    apply incident_eq_nil
    intro i _ hi
    rcases Option.map_eq_some_iff.1 hi with ⟨t, _, rfl⟩
    rw [hside] at hs
    exact absurd hs (Nat.not_lt.2 (Nat.le_add_left _ _))
  rw [attached_absorb_eq_append, hnone, List.map_nil, List.append_nil]

/-- At the second automaton's states are the same transitions under their new numbers. -/
theorem attached_absorb_add (hside : ∀ t, side (shiftTransition a.stateCount t) =
    side t + a.stateCount) (hlt : ∀ t ∈ a.transitions, side t < a.stateCount) {r : StateId} :
    (a.absorb b).attached side (r + a.stateCount) =
      (b.attached side r).map (· + a.transitions.size) := by
  have hnone : a.attached side (r + a.stateCount) = [] := by
    apply incident_eq_nil
    intro i _ hi
    rcases Option.map_eq_some_iff.1 hi with ⟨t, ht, hr⟩
    have := hlt t (Array.mem_of_getElem? ht)
    lia
  rw [attached_absorb_eq_append, hnone, List.nil_append, attached]
  congr 1
  apply incident_congr
  intro i _
  cases b.transitions[i]? with
  | none => simp
  | some t => simp [hside]

end Absorb

/-! ## Building steps keep the form -/

theorem isFinal_lt {a : Automaton} {s : StateId} (h : a.isFinal s = true) : s < a.stateCount := by
  by_contra hs
  simp [isFinal, Array.getElem?_eq_none_iff.2 (Nat.le_of_not_lt hs)] at h

theorem exists_state (a : Automaton) {s : StateId} (hs : s < a.stateCount) :
    ∃ state, a.states[s]? = some state :=
  ⟨_, Array.getElem?_eq_getElem hs⟩

theorem mem_of_mem_outTransitions (a : Automaton) {s : StateId} {t : Transition}
    (h : t ∈ a.outTransitions s) : t ∈ a.transitions := by
  unfold outTransitions at h
  split at h
  · exact absurd h List.not_mem_nil
  · rcases List.mem_filterMap.1 h with ⟨i, _, hi⟩
    exact Array.mem_of_getElem? hi

theorem outTransitions_setFinal (a : Automaton) (s x : StateId) (isFinal : Bool) :
    (a.setFinal s isFinal).outTransitions x = a.outTransitions x := by
  simp only [outTransitions, setFinal, Array.getElem?_modify]
  by_cases hx : s = x
  · simp only [hx, if_true]
    cases a.states[x]? <;> rfl
  · simp [hx]

theorem closureOf_setFinal (a : Automaton) (s x : StateId) (isFinal : Bool) :
    (a.setFinal s isFinal).closureOf x = a.closureOf x := by
  have htargets : (a.setFinal s isFinal).epsilonTargets = a.epsilonTargets := by
    funext y
    simp only [epsilonTargets, outTransitions_setFinal]
  simp only [closureOf, htargets, stateCount_setFinal]

namespace Indexed

variable {a : Automaton}

theorem mem_finals (ha : a.Indexed) {f : StateId} : f ∈ a.finals ↔ a.isFinal f = true := by
  simp only [finals, List.mem_map, List.mem_filter, Array.mem_toList_iff, isFinal]
  constructor
  · rintro ⟨state, ⟨hmem, hfinal⟩, rfl⟩
    rcases Array.getElem?_of_mem hmem with ⟨s, hs⟩
    rw [ha.id_eq hs, hs]
    exact hfinal
  · intro h
    cases hs : a.states[f]? with
    | none =>
      simp [hs] at h
    | some state =>
      rw [hs] at h
      exact ⟨state, ⟨Array.mem_of_getElem? hs, h⟩, ha.id_eq hs⟩

theorem sourceAt_lt (ha : a.Indexed) {i : Nat} {s : StateId} (h : a.sourceAt i = some s) :
    s < a.stateCount := by
  rcases Option.map_eq_some_iff.1 h with ⟨t, ht, rfl⟩
  exact ha.source_lt (Array.mem_of_getElem? ht)

theorem targetAt_lt (ha : a.Indexed) {i : Nat} {s : StateId} (h : a.targetAt i = some s) :
    s < a.stateCount := by
  rcases Option.map_eq_some_iff.1 h with ⟨t, ht, rfl⟩
  exact ha.target_lt (Array.mem_of_getElem? ht)

theorem mem_outTransitions (ha : a.Indexed) {s : StateId} {t : Transition} :
    t ∈ a.outTransitions s ↔ t ∈ a.transitions ∧ t.source = s := by
  rw [outTransitions]
  constructor
  · intro h
    cases hs : a.states[s]? with
    | none =>
      simp [hs] at h
    | some state =>
      simp only [hs, List.mem_filterMap, ha.out_eq hs, leaving, mem_incident] at h
      rcases h with ⟨i, ⟨_, hi⟩, ht⟩
      rw [sourceAt, ht] at hi
      exact ⟨Array.mem_of_getElem? ht, Option.some.inj hi⟩
  · rintro ⟨ht, rfl⟩
    rcases exists_state a (ha.source_lt ht) with ⟨state, hs⟩
    rcases Array.getElem?_of_mem ht with ⟨i, hi⟩
    have hlt : i < a.transitions.size := (Array.getElem?_eq_some_iff.1 hi).1
    simp only [hs, List.mem_filterMap, ha.out_eq hs, leaving, mem_incident]
    exact ⟨i, ⟨hlt, by rw [sourceAt, hi]; rfl⟩, hi⟩

end Indexed

namespace WellFormed

variable {a b : Automaton}

theorem pushState (ha : a.WellFormed) (n : Nat) : (a.pushState n).WellFormed := by
  have hold : ∀ {s : StateId} {state : State}, (a.pushState n).states[s]? = some state →
      a.states[s]? = some state ∨
        s = a.stateCount ∧ state = ⟨a.stateCount, n, false, [], []⟩ := by
    intro s state h
    simp only [Automaton.pushState, Array.getElem?_push] at h
    split at h
    · rename_i hs
      exact .inr ⟨hs, (Option.some.inj h).symm⟩
    · exact .inl h
  refine ⟨⟨?_, ?_, ?_, ?_, ?_, ?_⟩, ?_, ?_, ?_⟩
  · intro s state h
    rcases hold h with h | ⟨rfl, rfl⟩
    · exact ha.id_eq h
    · rfl
  · intro s state h
    rcases hold h with h | ⟨rfl, rfl⟩
    · exact ha.out_eq h
    · refine (incident_eq_nil ?_).symm
      intro i _ hi
      exact Nat.lt_irrefl _ (ha.sourceAt_lt hi)
  · intro t ht
    rw [stateCount_pushState]
    exact Nat.lt_succ_of_lt (ha.source_lt ht)
  · intro t ht
    rw [stateCount_pushState]
    exact Nat.lt_succ_of_lt (ha.target_lt ht)
  · rw [stateCount_pushState]
    exact Nat.lt_succ_of_lt ha.initial_lt
  · intro table h
    simp [Automaton.pushState] at h
  · intro s state h
    rcases hold h with h | ⟨rfl, rfl⟩
    · exact ha.inc_eq h
    · refine (incident_eq_nil ?_).symm
      intro i _ hi
      exact Nat.lt_irrefl _ (ha.targetAt_lt hi)
  · intro t ht
    exact ha.no_loop ht
  · exact ha.fault_eq

theorem setFinal (ha : a.WellFormed) (s : StateId) (isFinal : Bool) :
    (a.setFinal s isFinal).WellFormed := by
  have hold : ∀ {x : StateId} {state : State}, (a.setFinal s isFinal).states[x]? = some state →
      ∃ old, a.states[x]? = some old ∧ old.id = state.id ∧ old.out = state.out ∧
        old.inc = state.inc := by
    intro x state h
    simp only [Automaton.setFinal, Array.getElem?_modify] at h
    split at h
    · rcases Option.map_eq_some_iff.1 h with ⟨old, hold, rfl⟩
      exact ⟨old, hold, rfl, rfl, rfl⟩
    · exact ⟨state, h, rfl, rfl, rfl⟩
  refine ⟨⟨?_, ?_, ?_, ?_, ?_, ?_⟩, ?_, ?_, ?_⟩
  · intro x state h
    rcases hold h with ⟨old, hx, hid, _, _⟩
    rw [← hid]
    exact ha.id_eq hx
  · intro x state h
    rcases hold h with ⟨old, hx, _, hout, _⟩
    rw [← hout]
    exact ha.out_eq hx
  · intro t ht
    simpa using ha.source_lt ht
  · intro t ht
    simpa using ha.target_lt ht
  · simpa using ha.initial_lt
  · intro table h
    have hrow : (fun state : State => (a.setFinal s isFinal).closureOf state.id) =
        fun state => a.closureOf state.id := by
      funext state
      exact closureOf_setFinal a s state.id isFinal
    rw [ha.closures_eq h, hrow]
    apply Array.ext_getElem?
    intro x
    simp only [Automaton.setFinal, Array.getElem?_map, Array.getElem?_modify]
    split
    · cases a.states[x]? <;> rfl
    · rfl
  · intro x state h
    rcases hold h with ⟨old, hx, _, _, hinc⟩
    rw [← hinc]
    exact ha.inc_eq hx
  · intro t ht
    exact ha.no_loop ht
  · exact ha.fault_eq

theorem setInitial (ha : a.WellFormed) {s : StateId} (hs : s < a.stateCount) :
    (a.setInitial s).WellFormed :=
  { ha with initial_lt := hs }

theorem link (ha : a.WellFormed) {source target : StateId} {symbol : Symbol}
    (h : a.Addable source target symbol) : (a.link source target symbol).WellFormed := by
  rcases h with ⟨hsource, htarget, hloop⟩
  have hlists : ∀ {s : StateId} {state : State},
      (a.link source target symbol).states[s]? = some state →
      ∃ old, a.states[s]? = some old ∧ state.id = old.id ∧
        state.out = old.out ++ (if source = s then [a.transitions.size] else []) ∧
        state.inc = old.inc ++ (if target = s then [a.transitions.size] else []) := by
    intro s state h
    rw [getElem?_states_link] at h
    rcases Option.map_eq_some_iff.1 h with ⟨old, hold, rfl⟩
    exact ⟨old, hold, rfl, rfl, rfl⟩
  refine ⟨⟨?_, ?_, ?_, ?_, ?_, ?_⟩, ?_, ?_, ?_⟩
  · intro s state h
    rcases hlists h with ⟨old, hs, hid, _, _⟩
    rw [hid]
    exact ha.id_eq hs
  · intro s state h
    rcases hlists h with ⟨old, hs, _, hout, _⟩
    rw [hout, ha.out_eq hs]
    exact (attached_link a s source target symbol (·.source)).symm
  · intro t ht
    rw [stateCount_link]
    rcases Array.mem_push.1 ht with ht | rfl
    · exact ha.source_lt ht
    · exact hsource
  · intro t ht
    rw [stateCount_link]
    rcases Array.mem_push.1 ht with ht | rfl
    · exact ha.target_lt ht
    · exact htarget
  · simpa using ha.initial_lt
  · intro table h
    simp [Automaton.link] at h
  · intro s state h
    rcases hlists h with ⟨old, hs, _, _, hinc⟩
    rw [hinc, ha.inc_eq hs]
    exact (attached_link a s source target symbol (·.target)).symm
  · intro t ht
    rcases Array.mem_push.1 ht with ht | rfl
    · exact ha.no_loop ht
    · exact hloop
  · exact ha.fault_eq

theorem addTransition (ha : a.WellFormed) {source target : StateId} {symbol : Symbol}
    (h : a.Addable source target symbol) : (a.addTransition source target symbol).WellFormed := by
  rw [addTransition_eq_link h]
  exact ha.link h

theorem absorb (ha : a.WellFormed) (hb : b.WellFormed) : (a.absorb b).WellFormed := by
  have hstate : ∀ {s : StateId} {state : State}, (a.absorb b).states[s]? = some state →
      (s < a.stateCount ∧ a.states[s]? = some state) ∨
        ∃ r old, s = r + a.stateCount ∧ b.states[r]? = some old ∧
          shiftState a.stateCount a.transitions.size old = state := by
    intro s state h
    simp only [Automaton.absorb, Array.getElem?_append] at h
    split at h
    · rename_i hs
      exact .inl ⟨hs, h⟩
    · rename_i hs
      rw [Array.getElem?_map] at h
      rcases Option.map_eq_some_iff.1 h with ⟨old, hold, rfl⟩
      exact .inr ⟨s - a.stateCount, old, (Nat.sub_add_cancel (Nat.le_of_not_lt hs)).symm, hold, rfl⟩
  refine ⟨⟨?_, ?_, ?_, ?_, ?_, ?_⟩, ?_, ?_, ?_⟩
  · intro s state h
    rcases hstate h with ⟨_, h⟩ | ⟨r, old, rfl, hold, rfl⟩
    · exact ha.id_eq h
    · simp [shiftState, hb.id_eq hold]
  · intro s state h
    rcases hstate h with ⟨hs, h⟩ | ⟨r, old, rfl, hold, rfl⟩
    · rw [ha.out_eq h]
      exact (attached_absorb_of_lt (fun _ => rfl) hs).symm
    · simp only [shiftState, hb.out_eq hold]
      exact (attached_absorb_add (fun _ => rfl) (fun t ht => ha.source_lt ht)).symm
  · intro t ht
    rw [stateCount_absorb]
    rcases (mem_transitions_absorb a b).1 ht with ht | ⟨u, hu, rfl⟩
    · exact Nat.lt_add_right _ (ha.source_lt ht)
    · have := hb.source_lt hu
      simp only [shiftTransition]
      lia
  · intro t ht
    rw [stateCount_absorb]
    rcases (mem_transitions_absorb a b).1 ht with ht | ⟨u, hu, rfl⟩
    · exact Nat.lt_add_right _ (ha.target_lt ht)
    · have := hb.target_lt hu
      simp only [shiftTransition]
      lia
  · rw [initial_absorb, stateCount_absorb]
    exact Nat.lt_add_right _ ha.initial_lt
  · intro table h
    simp [Automaton.absorb] at h
  · intro s state h
    rcases hstate h with ⟨hs, h⟩ | ⟨r, old, rfl, hold, rfl⟩
    · rw [ha.inc_eq h]
      exact (attached_absorb_of_lt (fun _ => rfl) hs).symm
    · simp only [shiftState, hb.inc_eq hold]
      exact (attached_absorb_add (fun _ => rfl) (fun t ht => ha.target_lt ht)).symm
  · intro t ht
    rcases (mem_transitions_absorb a b).1 ht with ht | ⟨u, hu, rfl⟩
    · exact ha.no_loop ht
    · intro hε heq
      exact hb.no_loop hu hε (Nat.add_right_cancel heq)
  · simp [Automaton.absorb, ha.fault_eq, hb.fault_eq]

end WellFormed

end Automaton
end PathQuery

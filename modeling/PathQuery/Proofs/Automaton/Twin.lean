import PathQuery.Proofs.Automaton.Shape

/-!
# Automata that differ only in serials

Serials tell states of different automata apart in dumps and mean nothing else.

* `Automaton.Twin`: the automata are equal but for serials, and all their symbols have a property;
* `Twin.pushState`, `Twin.setFinal`, `Twin.addTransition`, `Twin.absorb`: the building steps keep
  this;
* `Twin.concat`, `Twin.union`, `Twin.iterate` and so on: so do the operations.
-/

namespace PathQuery

/-- The state without its serial. -/
def State.unnumbered (state : State) : State :=
  { state with serial := 0 }

namespace Automaton

/-- The automaton without its serials. -/
def unnumbered (a : Automaton) : Automaton :=
  { a with states := a.states.map State.unnumbered }

structure Twin (P : Symbol → Prop) (a b : Automaton) : Prop where
  states : a.states.map State.unnumbered = b.states.map State.unnumbered
  transitions : a.transitions = b.transitions
  initial : a.initial = b.initial
  closures : a.closures = b.closures
  fault : a.fault = b.fault
  symbols {t : Transition} : t ∈ a.transitions → P t.symbol

namespace Twin

variable {P : Symbol → Prop} {a a' b b' : Automaton}

theorem unnumbered_eq (h : Twin P a b) : a.unnumbered = b.unnumbered := by
  rcases a with ⟨states, transitions, initial, closures, fault⟩
  rcases b with ⟨states', transitions', initial', closures', fault'⟩
  obtain rfl : transitions = transitions' := h.transitions
  obtain rfl : initial = initial' := h.initial
  obtain rfl : closures = closures' := h.closures
  obtain rfl : fault = fault' := h.fault
  have hstates : states.map State.unnumbered = states'.map State.unnumbered := h.states
  simp only [unnumbered, hstates]

theorem refl (hsymbols : ∀ {t : Transition}, t ∈ a.transitions → P t.symbol) : Twin P a a where
  states := rfl
  transitions := rfl
  initial := rfl
  closures := rfl
  fault := rfl
  symbols := hsymbols

theorem mono {Q : Symbol → Prop} (h : Twin P a b) (hPQ : ∀ symbol, P symbol → Q symbol) :
    Twin Q a b where
  states := h.states
  transitions := h.transitions
  initial := h.initial
  closures := h.closures
  fault := h.fault
  symbols ht := hPQ _ (h.symbols ht)

theorem unnumbered_right (h : Twin P a b) : Twin P a b.unnumbered where
  states := by
    have hfixed : State.unnumbered ∘ State.unnumbered = State.unnumbered := rfl
    rw [unnumbered, Array.map_map, hfixed]
    exact h.states
  transitions := h.transitions
  initial := h.initial
  closures := h.closures
  fault := h.fault
  symbols := h.symbols

/-! ## Observations -/

theorem stateCount_eq (h : Twin P a b) : a.stateCount = b.stateCount := by
  have hsize := congrArg Array.size h.states
  rwa [Array.size_map, Array.size_map] at hsize

theorem getElem?_states (h : Twin P a b) (s : StateId) :
    a.states[s]?.map State.unnumbered = b.states[s]?.map State.unnumbered := by
  rw [← Array.getElem?_map, ← Array.getElem?_map, h.states]

theorem isFinal_eq (h : Twin P a b) : a.isFinal = b.isFinal := by
  funext s
  have hany : ∀ state : Option State,
      state.any (·.isFinal) = (state.map State.unnumbered).any (·.isFinal) := by
    rintro (_ | state) <;> rfl
  rw [isFinal, isFinal, hany, h.getElem?_states, ← hany]

theorem finals_eq (h : Twin P a b) : a.finals = b.finals := by
  have hfinals : ∀ c : Automaton, c.finals =
      (((c.states.map State.unnumbered).toList.filter (·.isFinal)).map (·.id)) := by
    intro c
    rw [finals, Array.toList_map, List.filter_map, List.map_map]
    rfl
  rw [hfinals a, hfinals b, h.states]

theorem outTransitions_eq (h : Twin P a b) : a.outTransitions = b.outTransitions := by
  funext s
  have hout := h.getElem?_states s
  unfold outTransitions
  rw [h.transitions]
  rcases ha : a.states[s]? with _ | state
  · rw [ha] at hout
    rw [Option.map_eq_none_iff.1 hout.symm]
  · rw [ha] at hout
    rcases Option.map_eq_some_iff.1 hout.symm with ⟨state', hb, heq⟩
    rw [hb]
    have hsame : state'.unnumbered.out = state.unnumbered.out := congrArg State.out heq
    have hlists : state'.out = state.out := hsame
    simp only [hlists]

theorem missing_eq (h : Twin P a b) : a.missing = b.missing := by
  funext s
  rw [missing, missing, h.stateCount_eq]

theorem closureTable_eq (h : Twin P a b) : a.closureTable = b.closureTable := by
  have hclosure : a.closureOf = b.closureOf := by
    funext s
    have htargets : a.epsilonTargets = b.epsilonTargets := by
      funext s
      rw [epsilonTargets, epsilonTargets, h.outTransitions_eq]
    rw [closureOf, closureOf, htargets, h.stateCount_eq]
  have hids : ∀ c : Automaton, (c.states.map fun state => b.closureOf state.id) =
      (c.states.map State.unnumbered).map fun state => b.closureOf state.id := by
    intro c
    rw [Array.map_map]
    rfl
  unfold closureTable
  rw [h.closures, hclosure, hids a, h.states, ← hids b]

theorem epsilonClosure_eq (h : Twin P a b) : a.epsilonClosure = b.epsilonClosure := by
  funext s
  rw [epsilonClosure, epsilonClosure, h.closureTable_eq]

theorem withClosures (h : Twin P a b) : Twin P a.withClosures b.withClosures where
  states := h.states
  transitions := h.transitions
  initial := h.initial
  closures := congrArg some h.closureTable_eq
  fault := h.fault
  symbols := h.symbols

/-! ## Building steps -/

theorem pushState (h : Twin P a b) (m n : Nat) : Twin P (a.pushState m) (b.pushState n) where
  states := by
    have hsize : a.states.size = b.states.size := h.stateCount_eq
    simp only [Automaton.pushState, Array.map_push, h.states, hsize]
    rfl
  transitions := h.transitions
  initial := h.initial
  closures := rfl
  fault := h.fault
  symbols := h.symbols

/-- A change that does not look at serials. -/
theorem map_modify_congr {states states' : Array State}
    (h : states.map State.unnumbered = states'.map State.unnumbered) (s : StateId)
    {f : State → State} (hf : ∀ state, (f state).unnumbered = f state.unnumbered) :
    (states.modify s f).map State.unnumbered = (states'.modify s f).map State.unnumbered := by
  have hcommute : ∀ states : Array State, (states.modify s f).map State.unnumbered =
      (states.map State.unnumbered).modify s f := by
    intro states
    refine Array.ext (by simp) ?_
    intro i _ _
    simp only [Array.getElem_map, Array.getElem_modify]
    split
    · exact hf _
    · rfl
  rw [hcommute, hcommute, h]

theorem setFinal (h : Twin P a b) (s : StateId) (isFinal : Bool) :
    Twin P (a.setFinal s isFinal) (b.setFinal s isFinal) where
  states := map_modify_congr (f := fun state => { state with isFinal }) h.states s fun _ => rfl
  transitions := h.transitions
  initial := h.initial
  closures := h.closures
  fault := h.fault
  symbols := h.symbols

theorem setInitial (h : Twin P a b) (s : StateId) : Twin P (a.setInitial s) (b.setInitial s) where
  states := h.states
  transitions := h.transitions
  initial := rfl
  closures := h.closures
  fault := h.fault
  symbols := h.symbols

theorem reject (h : Twin P a b) (fault : BuildFault) : Twin P (a.reject fault) (b.reject fault) where
  states := h.states
  transitions := h.transitions
  initial := h.initial
  closures := h.closures
  fault := by
    rw [Automaton.reject, Automaton.reject, h.fault]
  symbols := h.symbols

theorem link (h : Twin P a b) (source target : StateId) {symbol : Symbol} (hsymbol : P symbol) :
    Twin P (a.link source target symbol) (b.link source target symbol) where
  states := by
    simp only [Automaton.link, h.transitions]
    refine map_modify_congr (map_modify_congr h.states source ?_) target ?_
    · intro state
      rfl
    · intro state
      rfl
  transitions := by
    rw [transitions_link, transitions_link, h.transitions]
  initial := h.initial
  closures := rfl
  fault := h.fault
  symbols {t} ht := by
    rw [transitions_link, Array.mem_push] at ht
    rcases ht with ht | rfl
    · exact h.symbols ht
    · exact hsymbol

theorem addTransition (h : Twin P a b) (source target : StateId) {symbol : Symbol}
    (hsymbol : P symbol) :
    Twin P (a.addTransition source target symbol) (b.addTransition source target symbol) := by
  have hfault : a.linkFault source target symbol = b.linkFault source target symbol := by
    rw [linkFault, linkFault, h.missing_eq]
  unfold Automaton.addTransition
  rw [hfault]
  split
  · exact h.reject _
  · exact h.link source target hsymbol

/-- A chain of steps keeps what each of them keeps. -/
theorem foldl {β : Type} {f : Automaton → β → Automaton} {xs : List β}
    (hf : ∀ {a b : Automaton}, Twin P a b → ∀ x ∈ xs, Twin P (f a x) (f b x)) (h : Twin P a b) :
    Twin P (xs.foldl f a) (xs.foldl f b) := by
  induction xs generalizing a b with
  | nil => exact h
  | cons x xs ih =>
    exact ih (fun h y hy => hf h y (List.mem_cons_of_mem x hy)) (hf h x List.mem_cons_self)

theorem absorb (ha : Twin P a a') (hb : Twin P b b') : Twin P (a.absorb b) (a'.absorb b') where
  states := by
    have hshift : ∀ (c : Automaton) (m n : Nat),
        (c.states.map (shiftState m n)).map State.unnumbered =
          (c.states.map State.unnumbered).map (shiftState m n) := by
      intro c m n
      rw [Array.map_map, Array.map_map]
      rfl
    have hsize : a.states.size = a'.states.size := ha.stateCount_eq
    simp only [Automaton.absorb, Array.map_append, hshift, ha.states, hb.states, ha.transitions,
      hsize]
  transitions := by
    have hsize : a.states.size = a'.states.size := ha.stateCount_eq
    simp only [Automaton.absorb, ha.transitions, hb.transitions, hsize]
  initial := ha.initial
  closures := rfl
  fault := by
    simp only [Automaton.absorb, ha.fault, hb.fault]
  symbols {t} ht := by
    rcases Array.mem_append.1 ht with ht | ht
    · exact ha.symbols ht
    · rcases Array.mem_map.1 ht with ⟨u, hu, rfl⟩
      have husymbol : P u.symbol := hb.symbols hu
      exact husymbol

theorem shiftFault_eq (ha : Twin P a a') (hb : Twin P b b') : a.shiftFault b = a'.shiftFault b' := by
  rw [shiftFault, shiftFault, ha.stateCount_eq, hb.stateCount_eq, hb.initial]

/-! ## Operations -/

theorem copy (h : Twin P a b) (register : Bool) (m n : Nat) :
    Twin P (a.copy register m).1 (b.copy register n).1 := by
  cases register with
  | false => exact ⟨h.states, h.transitions, h.initial, rfl, h.fault, h.symbols⟩
  | true =>
    have hstates : ∀ (c : Automaton) (k : Nat),
        (c.states.mapIdx fun i state => { state with serial := k + i }).map State.unnumbered =
          c.states.map State.unnumbered := by
      intro c k
      refine Array.ext (by simp) ?_
      intro i _ _
      simp [State.unnumbered]
    exact ⟨(hstates a m).trans (h.states.trans (hstates b n).symm), h.transitions, h.initial, rfl,
      h.fault, h.symbols⟩

theorem empty : Twin P { states := #[], transitions := #[], initial := 0 }
    { states := #[], transitions := #[], initial := 0 } :=
  refl fun ht => absurd ht (Array.not_mem_empty _)

theorem epsilon (m n : Nat) : Twin P (Automaton.epsilon m).1 (Automaton.epsilon n).1 :=
  (empty.pushState m n).setFinal 0 true

theorem single {symbol : Symbol} (hsymbol : P symbol) (m n : Nat) :
    Twin P (Automaton.single symbol m).1 (Automaton.single symbol n).1 :=
  ((((epsilon m n).setFinal 0 false).pushState _ _).setFinal 1 true).addTransition 0 1 hsymbol

section Epsilon

variable (hepsilon : P .epsilon)
include hepsilon

theorem concat (ha : Twin P a a') (hb : Twin P b b') : Twin P (a.concat b) (a'.concat b') := by
  simp only [Automaton.concat, ha.shiftFault_eq hb, ha.finals_eq, ha.stateCount_eq, hb.initial]
  split
  · exact (ha.absorb hb).reject _
  · refine foldl ?_ (ha.absorb hb)
    intro c c' hc f _
    exact (hc.setFinal f false).addTransition f _ hepsilon

theorem union (ha : Twin P a a') (hb : Twin P b b') (m n : Nat) :
    Twin P (a.union b m).1 (a'.union b' n).1 := by
  have hstart := ((ha.absorb hb).pushState m n).addTransition (a.absorb b).stateCount a.initial
    hepsilon
  rw [union_apply, union_apply, ← ha.shiftFault_eq hb, ← (ha.absorb hb).stateCount_eq, ← ha.initial,
    ← hb.initial, ← ha.stateCount_eq]
  refine setInitial ?_ _
  cases a.shiftFault b with
  | none => exact hstart.addTransition _ _ hepsilon
  | some fault => exact hstart.reject fault

theorem iterate (h : Twin P a b) (allowEmpty : Bool) (m n : Nat) :
    Twin P (a.iterate allowEmpty m).1 (b.iterate allowEmpty n).1 := by
  have hentered : Twin P (a.entered m) (b.entered n) := by
    rw [entered, entered, ← h.stateCount_eq, ← h.initial]
    exact ((h.pushState m n).pushState _ _).addTransition _ _ hepsilon
  have hlinked : Twin P (a.finals.foldl (a.linkAgain (a.stateCount + 1)) (a.entered m))
      (a.finals.foldl (a.linkAgain (a.stateCount + 1)) (b.entered n)) := by
    refine foldl ?_ hentered
    intro c c' hc f _
    have hleave := (hc.setFinal f false).addTransition f (a.stateCount + 1) hepsilon
    unfold linkAgain
    split
    · exact hleave.addTransition f a.initial hepsilon
    · exact hleave
  have hagain : b.linkAgain = a.linkAgain := by
    funext last c f
    simp only [linkAgain, h.initial]
  rw [iterate_apply, iterate_apply, ← h.stateCount_eq, ← h.finals_eq, hagain]
  refine (setFinal ?_ _ true).setInitial _
  split
  · exact hlinked.addTransition _ _ hepsilon
  · exact hlinked

theorem optional (h : Twin P a b) (m n : Nat) : Twin P (a.optional m).1 (b.optional n).1 := by
  have hentered := (h.pushState m n).addTransition a.stateCount a.initial hepsilon
  change Twin P ((((a.pushState m).addTransition a.stateCount a.initial .epsilon).setFinal
      a.stateCount true).setInitial a.stateCount)
    ((((b.pushState n).addTransition b.stateCount b.initial .epsilon).setFinal
      b.stateCount true).setInitial b.stateCount)
  rw [← h.stateCount_eq, ← h.initial]
  exact (hentered.setFinal a.stateCount true).setInitial a.stateCount

theorem appendCopies (h : Twin P a a') (count : Nat) (hb : Twin P b b') (m n : Nat) :
    Twin P (a.appendCopies count b m).1 (a'.appendCopies count b' n).1 := by
  induction count generalizing b b' m n with
  | zero => exact hb
  | succ count ih => exact ih (hb.concat hepsilon (h.copy true m n)) _ _

theorem power (h : Twin P a b) (count m n : Nat) :
    Twin P (a.power count m).1 (b.power count n).1 := by
  cases count with
  | zero => exact epsilon m n
  | succ count => exact h.appendCopies hepsilon count (h.copy true m n) _ _

end Epsilon

section Reversal

variable (hreversed : ∀ symbol, P symbol → P symbol.reversed)
include hreversed

theorem reversedLinks (h : Twin P a b) : Twin P a.reversedLinks b.reversedLinks := by
  unfold Automaton.reversedLinks
  rw [← Array.foldl_toList, ← Array.foldl_toList, ← h.transitions]
  refine foldl ?_ ?_
  · intro c c' hc t ht
    exact hc.addTransition _ _ (hreversed _ (h.symbols (Array.mem_toList_iff.1 ht)))
  · refine ⟨?_, rfl, h.initial, rfl, h.fault, fun ht => absurd ht (Array.not_mem_empty _)⟩
    have hunlinked : ∀ (c : Automaton) (initial : StateId),
        (c.states.map fun s => ({ s with isFinal := s.id == initial, out := [], inc := [] } :
          State)).map State.unnumbered = (c.states.map State.unnumbered).map fun s =>
            { s with isFinal := s.id == initial, out := [], inc := [] } := by
      intro c initial
      rw [Array.map_map, Array.map_map]
      rfl
    simp only [hunlinked, h.states, h.initial]

theorem reverse (hepsilon : P .epsilon) (h : Twin P a b) (m n : Nat) :
    Twin P (a.reverse m).1 (b.reverse n).1 := by
  have hlinks := h.reversedLinks hreversed
  have hfresh : Twin P
      ((a.finals.foldl (fun c f => c.addTransition a.reversedLinks.stateCount f .epsilon)
        (a.reversedLinks.pushState m)).setInitial a.reversedLinks.stateCount)
      ((a.finals.foldl (fun c f => c.addTransition b.reversedLinks.stateCount f .epsilon)
        (b.reversedLinks.pushState n)).setInitial b.reversedLinks.stateCount) := by
    rw [← hlinks.stateCount_eq]
    refine setInitial (foldl ?_ (hlinks.pushState m n)) _
    intro c c' hc f _
    exact hc.addTransition _ f hepsilon
  unfold Automaton.reverse
  rw [← h.finals_eq]
  rcases hfinals : a.finals with _ | ⟨f, _ | ⟨f', fs⟩⟩
  · rw [hfinals] at hfresh
    exact hfresh
  · exact hlinks.setInitial f
  · rw [hfinals] at hfresh
    exact hfresh

end Reversal

end Twin
end Automaton
end PathQuery

import PathQuery.Automaton.Symbol

/-!
# Automata

States and transitions are numbered; a state lists the transitions that leave and enter it.  Every
state has a serial, drawn from a supply that is shared by all automata.

* `Automaton.newState`, `Automaton.setFinal`, `Automaton.setInitial`, `Automaton.addTransition`:
  the building steps;
* `Automaton.epsilon`, `Automaton.single`: the automata of the empty path and of one step;
* `Automaton.dedupTransitions`: drops parallel transitions with equal symbols.

A table of epsilon closures can be kept with an automaton; every step that changes the states or
the transitions drops it.
-/

namespace PathQuery

/-- The number of a state within its automaton. -/
abbrev StateId := Nat

def StateId.toText (s : StateId) : String :=
  s!"s{s}"

/-- Computations that draw serials: the state is the next serial. -/
abbrev Fresh (α : Type) := StateM Nat α

def Fresh.serial : Fresh Nat :=
  modifyGet fun n => (n, n + 1)

structure State where
  id : StateId
  serial : Nat
  isFinal : Bool
  /-- Transitions that leave the state. -/
  out : List Nat
  /-- Transitions that enter the state. -/
  inc : List Nat
  deriving Repr

structure Transition where
  source : StateId
  target : StateId
  symbol : Symbol
  deriving Repr

/-- Why a building step could not be made. -/
inductive BuildFault where
  /-- An empty transition was to link a state with itself. -/
  | selfLoop (s : StateId)
  /-- A state was named that the automaton does not have. -/
  | outOfRange (stateCount : Nat) (s : StateId)
  /-- The number of a missing state had to grow beyond what a number can be. -/
  | overflow
  deriving DecidableEq, Repr

namespace BuildFault

def message : BuildFault → String
  | selfLoop s => s!"epsilon self-loop on {s.toText}"
  | outOfRange count s => s!"index out of bounds: the len is {count} but the index is {s}"
  | overflow => "attempt to add with overflow"

end BuildFault

structure Automaton where
  states : Array State
  transitions : Array Transition
  initial : StateId
  /-- For every state the states that it reaches by empty transitions, once they were asked for. -/
  closures : Option (Array IdSet) := none
  /-- The first building step that could not be made; an automaton with a fault is of no use. -/
  fault : Option BuildFault := none
  deriving Repr

namespace Automaton

/-! ## Questions -/

def stateCount (a : Automaton) : Nat :=
  a.states.size

def isFinal (a : Automaton) (s : StateId) : Bool :=
  a.states[s]?.any (·.isFinal)

/-- The final states, ascending. -/
def finals (a : Automaton) : List StateId :=
  (a.states.toList.filter (·.isFinal)).map (·.id)

/-- The fault of a step that names a state, if there is no such state. -/
def missing (a : Automaton) (s : StateId) : Option BuildFault :=
  if s < a.stateCount then none else some (.outOfRange a.stateCount s)

def outTransitions (a : Automaton) (s : StateId) : List Transition :=
  match a.states[s]? with
  | none => []
  | some state => state.out.filterMap fun i => a.transitions[i]?

/-! ## Building -/

def newState (a : Automaton) : Fresh (StateId × Automaton) := do
  let serial ← Fresh.serial
  let id := a.states.size
  pure (id,
    { a with
      states := a.states.push { id, serial, isFinal := false, out := [], inc := [] }
      closures := none })

def setFinal (a : Automaton) (s : StateId) (isFinal : Bool) : Automaton :=
  { a with states := a.states.modify s fun state => { state with isFinal } }

def setInitial (a : Automaton) (s : StateId) : Automaton :=
  { a with initial := s }

/-- Adds a transition and lists it at its two ends. -/
def link (a : Automaton) (source target : StateId) (symbol : Symbol) : Automaton :=
  let i := a.transitions.size
  { a with
    transitions := a.transitions.push { source, target, symbol }
    states :=
      (a.states.modify source fun state => { state with out := state.out ++ [i] }).modify target
        fun state => { state with inc := state.inc ++ [i] }
    closures := none }

/-- What keeps a transition from being added. -/
def linkFault (a : Automaton) (source target : StateId) (symbol : Symbol) : Option BuildFault :=
  if symbol.isEpsilon && source == target then some (.selfLoop source)
  else (a.missing source).or (a.missing target)

/-- Notes a fault unless there is one. -/
def reject (a : Automaton) (fault : BuildFault) : Automaton :=
  { a with fault := a.fault.or (some fault) }

def addTransition (a : Automaton) (source target : StateId) (symbol : Symbol) : Automaton :=
  match a.linkFault source target symbol with
  | some fault => a.reject fault
  | none => a.link source target symbol

/-- One state, initial and final. -/
def epsilon : Fresh Automaton := do
  let (s, a) ← newState { states := #[], transitions := #[], initial := 0 }
  pure (a.setFinal s true)

/-- Two states with one transition between them. -/
def single (symbol : Symbol) : Fresh Automaton := do
  let a ← epsilon
  let (last, b) ← (a.setFinal a.initial false).newState
  pure ((b.setFinal last true).addTransition b.initial last symbol)

/-! ## Parallel transitions -/

def sameTransition (t u : Transition) : Bool :=
  t.source == u.source && t.target == u.target && t.symbol.same u.symbol

/-- The first of every class of equal parallel transitions, in order. -/
def distinctTransitions (ts : List Transition) : List Transition :=
  ts.foldl (fun kept t => if kept.any (sameTransition · t) then kept else kept ++ [t]) []

/-- Answers how many transitions were dropped. -/
def dedupTransitions (a : Automaton) : Nat × Automaton :=
  let kept := distinctTransitions a.transitions.toList
  let removed := a.transitions.size - kept.length
  if removed = 0 then (0, a)
  else
    let bare : Automaton :=
      { a with
        states := a.states.map fun state => { state with out := [], inc := [] }
        transitions := #[]
        closures := none }
    (removed, kept.foldl (fun b t => b.addTransition t.source t.target t.symbol) bare)

end Automaton

end PathQuery

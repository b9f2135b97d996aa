import PathQuery.Automaton.Basic

/-!
# Composing automata

Every operation keeps its operands' states and joins them by empty transitions.

* `concat`, `union`, `star`, `plus`, `optional`, `power`: the regular operations;
* `reverse`: the automaton of the transposed path;
* `copy`: the same automaton, with fresh serials if asked for.
-/

namespace PathQuery
namespace Automaton

/-! ## Side by side -/

def shiftState (states transitions : Nat) (s : State) : State :=
  { s with
    id := s.id + states
    out := s.out.map (· + transitions)
    inc := s.inc.map (· + transitions) }

def shiftTransition (states : Nat) (t : Transition) : Transition :=
  { t with source := t.source + states, target := t.target + states }

/-- The states and transitions of both, those of the second one renumbered to follow the first's. -/
def absorb (a b : Automaton) : Automaton :=
  { a with
    states := a.states ++ b.states.map (shiftState a.states.size a.transitions.size)
    transitions := a.transitions ++ b.transitions.map (shiftTransition a.states.size)
    closures := none
    fault := a.fault.or b.fault }

/-- State numbers have 32 bits. -/
def stateBound : Nat := 0x100000000

/-- Whether the second automaton's initial state can be renumbered to follow the first's states;
only the number of a missing state can be too large for it. -/
def shiftFault (a b : Automaton) : Option BuildFault :=
  if b.initial < b.stateCount || b.initial + a.stateCount < stateBound then none
  else some .overflow

/-! ## Regular operations -/

def concat (a b : Automaton) : Automaton :=
  let target := b.initial + a.stateCount
  match a.shiftFault b with
  | some fault => (a.absorb b).reject fault
  | none =>
    a.finals.foldl (fun c f => (c.setFinal f false).addTransition f target .epsilon) (a.absorb b)

/-- Through a fresh initial state. -/
def union (a b : Automaton) : Fresh Automaton := do
  let (start, c) ← (a.absorb b).newState
  let c := c.addTransition start a.initial .epsilon
  let c := match a.shiftFault b with
    | some fault => c.reject fault
    | none => c.addTransition start (b.initial + a.stateCount) .epsilon
  pure (c.setInitial start)

/-- Between a fresh initial and a fresh final state. -/
def iterate (a : Automaton) (allowEmpty : Bool) : Fresh Automaton := do
  let (start, b) ← a.newState
  let (last, b) ← b.newState
  let b := b.addTransition start a.initial .epsilon
  let b := a.finals.foldl
    (fun b f =>
      let b := (b.setFinal f false).addTransition f last .epsilon
      if f != a.initial then b.addTransition f a.initial .epsilon else b)
    b
  let b := if allowEmpty then b.addTransition start last .epsilon else b
  pure ((b.setFinal last true).setInitial start)

def star (a : Automaton) : Fresh Automaton :=
  a.iterate true

def plus (a : Automaton) : Fresh Automaton :=
  a.iterate false

/-- Through a fresh initial state that is final. -/
def optional (a : Automaton) : Fresh Automaton := do
  let (start, b) ← a.newState
  let b := b.addTransition start a.initial .epsilon
  pure ((b.setFinal start true).setInitial start)

/-- Fresh serials are drawn in the order of the states. -/
def copy (a : Automaton) (register : Bool) : Fresh Automaton :=
  if register then
    modifyGet fun n =>
      ({ a with
          states := a.states.mapIdx fun i state => { state with serial := n + i }
          closures := none },
        n + a.states.size)
  else pure { a with closures := none }

/-- Appends so many fresh copies. -/
def appendCopies (a : Automaton) : Nat → Automaton → Fresh Automaton
  | 0, out => pure out
  | n + 1, out => do
    let next ← a.copy true
    appendCopies a n (out.concat next)

/-- So many copies in sequence; none of them leaves the empty path. -/
def power (a : Automaton) : Nat → Fresh Automaton
  | 0 => epsilon
  | n + 1 => do
    let first ← a.copy true
    appendCopies a n first

/-! ## Reversal -/

/-- The states with the initial state as the only final one, and every transition turned round. -/
def reversedLinks (a : Automaton) : Automaton :=
  a.transitions.foldl (fun b t => b.addTransition t.target t.source t.symbol.reversed)
    { states := a.states.map fun s =>
        { s with isFinal := s.id == a.initial, out := [], inc := [] }
      transitions := #[]
      initial := a.initial
      fault := a.fault }

/-- A single final state becomes the initial one; otherwise a fresh initial state leads to all of
them. -/
def reverse (a : Automaton) : Fresh Automaton :=
  match a.finals with
  | [only] => pure (a.reversedLinks.setInitial only)
  | finals => do
    let (start, b) ← a.reversedLinks.newState
    let b := finals.foldl (fun b f => b.addTransition start f .epsilon) b
    pure (b.setInitial start)

end Automaton
end PathQuery

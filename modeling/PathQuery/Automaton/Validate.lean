import PathQuery.Automaton.Basic
import PathQuery.Reachable

/-!
# Well-formed automata

* `AutomatonFault`: what can be wrong with an automaton or with the description it is made from;
* `Automaton.validate`: the first fault of an automaton, if it has any.
-/

namespace PathQuery

inductive AutomatonFault where
  | initialOutOfRange (s : StateId)
  | dangling (transition : Nat) (source target : StateId)
  | selfLoop (s : StateId)
  | unlisted (transition : Nat)
  | unreachableFinal (s : StateId)
  | noBranches (node : NodeId)
  | exponentTooLarge (exponent : Nat) (node : NodeId)
  deriving DecidableEq, Repr

namespace AutomatonFault

def message : AutomatonFault → String
  | initialOutOfRange s => s!"initial state {s.toText} out of range"
  | dangling i s t => s!"transition {i} ({s.toText} -> {t.toText}) dangles"
  | selfLoop s => s!"epsilon self-loop on {s.toText}"
  | unlisted i => s!"transition {i} missing from adjacency lists"
  | unreachableFinal s => s!"final state {s.toText} is unreachable"
  | noBranches node => s!"alternative {node.toText} has no branches"
  | exponentTooLarge n node => s!"exponent {n} at {node.toText} exceeds {Pattern.maxExponent}"

end AutomatonFault

namespace Automaton

def transitionFault (a : Automaton) (i : Nat) (t : Transition) : Option AutomatonFault :=
  if a.stateCount ≤ t.source || a.stateCount ≤ t.target then
    some (.dangling i t.source t.target)
  else if t.symbol.isEpsilon && t.source == t.target then some (.selfLoop t.source)
  else if a.states[t.source]?.any (·.out.contains i) && a.states[t.target]?.any (·.inc.contains i)
  then none
  else some (.unlisted i)

def transitionFaults (a : Automaton) : List AutomatonFault :=
  a.transitions.toList.zipIdx.filterMap fun (t, i) => a.transitionFault i t

/-- The states that some sequence of transitions leads to. -/
def reachableStates (a : Automaton) : List StateId :=
  reachableFrom (fun s => (a.outTransitions s).map (·.target)) a.stateCount a.initial

def validate (a : Automaton) : Option AutomatonFault :=
  if a.stateCount ≤ a.initial then some (.initialOutOfRange a.initial)
  else
    match a.transitionFaults with
    | fault :: _ => some fault
    | [] =>
      let reachable := a.reachableStates
      (a.finals.find? fun f => !reachable.contains f).map .unreachableFinal

end Automaton

end PathQuery

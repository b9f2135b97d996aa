import PathQuery.Automaton.Basic
import PathQuery.Reachable

/-!
# Epsilon closures

* `closureOf`: the states that a state reaches by empty transitions, itself included;
* `withClosures`: the automaton with the table of all closures kept;
* `epsilonClosure`: one row of the table, read from the automaton if it is kept there.
-/

namespace PathQuery
namespace Automaton

def epsilonTargets (a : Automaton) (s : StateId) : List StateId :=
  (a.outTransitions s).filterMap fun t => if t.symbol.isEpsilon then some t.target else none

def closureOf (a : Automaton) (s : StateId) : IdSet :=
  .ofList (reachableFrom a.epsilonTargets a.stateCount s)

def closureTable (a : Automaton) : Array IdSet :=
  match a.closures with
  | some table => table
  | none => a.states.map fun state => a.closureOf state.id

def withClosures (a : Automaton) : Automaton :=
  { a with closures := some a.closureTable }

/-- A state that the automaton does not have reaches nothing. -/
def epsilonClosure (a : Automaton) (s : StateId) : IdSet :=
  a.closureTable[s]?.getD .empty

end Automaton
end PathQuery

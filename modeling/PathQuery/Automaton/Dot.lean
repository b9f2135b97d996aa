import PathQuery.Automaton.Basic

/-!
# Drawing automata

* `Automaton.toDot`: the automaton in the language of Graphviz, one line for each state and each
  transition.
-/

namespace PathQuery
namespace Automaton

/-- Quotes end a label, so they are written with a backslash. -/
def dotLabel (text : String) : String :=
  String.ofList (text.toList.flatMap fun c => if c = '"' then ['\\', '"'] else [c])

def dotState (s : State) : String :=
  let shape := if s.isFinal then "doublecircle" else "circle"
  s!"  {s.id.toText} [shape={shape}, label=\"{s.id.toText}\\n#{s.serial}\"];\n"

def dotTransition (t : Transition) : String :=
  let label := dotLabel t.symbol.toText
  s!"  {t.source.toText} -> {t.target.toText} [label=\"{label}\"];\n"

def toDot (a : Automaton) : String :=
  "digraph nfa \x7b\n  rankdir=LR;\n  __start [shape=point];\n"
    ++ String.join (a.states.toList.map dotState)
    ++ s!"  __start -> {a.initial.toText};\n"
    ++ String.join (a.transitions.toList.map dotTransition)
    ++ "\x7d\n"

end Automaton
end PathQuery

/-!
# Reachability over numbered things

* `reachableFrom next bound start`: everything that can be reached from `start` by repeatedly going
  to one of the `next` numbers, found in rounds.  Each round that finds something new goes one step
  further, so `bound` rounds are enough as soon as no shortest way is longer than `bound`.
-/

namespace PathQuery

/-- The candidates that were not seen yet, each once. -/
def unseen (seen candidates : List Nat) : List Nat :=
  candidates.eraseDups.filter fun x => !seen.contains x

def reachableRounds (next : Nat → List Nat) : Nat → List Nat → List Nat → List Nat
  | 0, seen, _ => seen
  | rounds + 1, seen, frontier =>
    match unseen seen (frontier.flatMap next) with
    | [] => seen
    | fresh => reachableRounds next rounds (fresh ++ seen) fresh

def reachableFrom (next : Nat → List Nat) (bound start : Nat) : List Nat :=
  reachableRounds next bound [start] [start]

end PathQuery

import PathQuery.Syntax.Basic
import PathQuery.Reachable

/-!
# The evaluation cache

Every node of a syntax graph has an entry, which says whether the node's value is known, is being
computed, or neither, and counts how often its rule was started.

* `Cache.begin`: asks for a value; an unknown one is marked as being computed;
* `Cache.finish`, `Cache.abort`: the two ways to end a computation;
* `Cache.resetFrom`, `Cache.resetAllFrom`: forget the values of a node and of everything below it.
-/

namespace PathQuery

inductive Memo where
  | uninitialized
  | inProgress
  | done (value : Value)
  deriving Repr

namespace Memo

def toText : Memo → String
  | uninitialized => "uninitialized"
  | inProgress => "in_progress"
  | done _ => "done"

def isInProgress : Memo → Bool
  | inProgress => true
  | _ => false

def value : Memo → Option Value
  | done v => some v
  | _ => none

end Memo

structure CacheEntry where
  memo : Memo := .uninitialized
  /-- How many times the rule was started. -/
  evaluations : Nat := 0
  deriving Repr

def CacheEntry.blank : CacheEntry := {}

structure Cache where
  entries : Array CacheEntry := #[]
  deriving Repr

namespace Cache

def size (cache : Cache) : Nat :=
  cache.entries.size

/-- The entry of a node; a node beyond the entries has a blank one. -/
def entry (cache : Cache) (node : NodeId) : CacheEntry :=
  cache.entries[node]?.getD .blank

def memo (cache : Cache) (node : NodeId) : Memo :=
  (cache.entry node).memo

def evaluations (cache : Cache) (node : NodeId) : Nat :=
  (cache.entry node).evaluations

/-- The cache with blank entries added up to and including a node. -/
def extend (cache : Cache) (node : NodeId) : Cache :=
  ⟨cache.entries ++ Array.replicate (node + 1 - cache.size) .blank⟩

def setMemo (cache : Cache) (node : NodeId) (memo : Memo) : Cache :=
  ⟨(cache.extend node).entries.modify node fun entry => { entry with memo }⟩

/-- Marks the node as being computed and counts the start. -/
def start (cache : Cache) (node : NodeId) : Cache :=
  ⟨(cache.extend node).entries.modify node fun entry =>
    ⟨.inProgress, entry.evaluations + 1⟩⟩

/-- The known value, or nothing if the caller is to compute it. -/
def begin (cache : Cache) (node : NodeId) : Except EvalError (Option Value) × Cache :=
  match cache.memo node with
  | .done value => (.ok (some value), cache.extend node)
  | .inProgress => (.error (.cyclicEvaluation node), cache.extend node)
  | .uninitialized => (.ok none, cache.start node)

def finish (cache : Cache) (node : NodeId) (value : Value) : Cache :=
  cache.setMemo node (.done value)

/-- The computation failed; the node may be tried again. -/
def abort (cache : Cache) (node : NodeId) : Cache :=
  cache.setMemo node .uninitialized

/-! ## Forgetting -/

/-- Forgets the value of an entry, if the cache has the entry and the test lets it go. -/
def forget (p : Memo → Bool) (cache : Cache) (node : NodeId) : Cache :=
  ⟨cache.entries.modify node fun entry =>
    if p entry.memo then { entry with memo := .uninitialized } else entry⟩

/-- The nodes below a node, itself included.  No way without repetition is longer than the number
of nodes. -/
def below (g : SyntaxGraph) (root : NodeId) : List NodeId :=
  reachableFrom g.childrenOf (g.size + 1) root

/-- Entries that are being computed are left alone, so an enclosing computation can end and can
still notice that it depends on itself. -/
def resetFrom (cache : Cache) (g : SyntaxGraph) (root : NodeId) : Cache :=
  (below g root).foldl (forget fun memo => !memo.isInProgress) cache

/-- Includes entries that an abandoned computation left behind. -/
def resetAllFrom (cache : Cache) (g : SyntaxGraph) (root : NodeId) : Cache :=
  (below g root).foldl (forget fun _ => true) cache

def clear (cache : Cache) : Cache :=
  ⟨cache.entries.map fun entry => { entry with memo := .uninitialized }⟩

end Cache

end PathQuery

import PathQuery.Proofs.Automaton.Regular

/-!
# Building steps and closure queries in any order

The table of epsilon closures is kept with an automaton from the first query on.  It is right as
long as every step that changes the states or the transitions drops it, in whatever order the steps
and the queries come.

* `Automaton.Made`: all that the building steps, the operations and the queries make together; a
  step can name a state that does not exist;
* `Automaton.Intact`: the invariant — nothing but the initial state and the noted fault can be out
  of order;
* `Made.intact`: every step keeps it;
* `ExactClosure`, `epsilonClosure_exact`: what a query answers.
-/

namespace PathQuery
namespace Automaton

variable {a b : Automaton}

/-- Nothing is asked of a step.  A transition is refused if one of its ends does not exist or if it
is empty and links a state with itself, and the initial state may be set to one that does not
exist. -/
inductive Made : Automaton → Prop where
  | epsilon (n : Nat) : Made (epsilon n).1
  | single (symbol : Symbol) (n : Nat) : Made (single symbol n).1
  | newState {a : Automaton} (n : Nat) : Made a → Made (a.newState n).1.2
  | addTransition {a : Automaton} (source target : StateId) (symbol : Symbol) :
      Made a → Made (a.addTransition source target symbol)
  | setFinal {a : Automaton} (s : StateId) (isFinal : Bool) :
      Made a → Made (a.setFinal s isFinal)
  | setInitial {a : Automaton} (s : StateId) : Made a → Made (a.setInitial s)
  /-- A closure was asked for. -/
  | withClosures {a : Automaton} : Made a → Made a.withClosures
  | dedupTransitions {a : Automaton} : Made a → Made a.dedupTransitions.2
  | concat {a b : Automaton} : Made a → Made b → Made (a.concat b)
  | union {a b : Automaton} (n : Nat) : Made a → Made b → Made (a.union b n).1
  | star {a : Automaton} (n : Nat) : Made a → Made (a.star n).1
  | plus {a : Automaton} (n : Nat) : Made a → Made (a.plus n).1
  | optional {a : Automaton} (n : Nat) : Made a → Made (a.optional n).1
  | power {a : Automaton} (count n : Nat) : Made a → Made (a.power count n).1
  | reverse {a : Automaton} (n : Nat) : Made a → Made (a.reverse n).1
  | copy {a : Automaton} (register : Bool) (n : Nat) : Made a → Made (a.copy register n).1

/-! ## The invariant -/

/-- The automaton as if it started at its first state and no step had failed. -/
def restarted (a : Automaton) : Automaton :=
  { a with initial := 0, fault := none }

def Intact (a : Automaton) : Prop :=
  a.restarted.WellFormed

theorem WellFormed.intact (ha : a.WellFormed) : a.Intact :=
  { ha with
    initial_lt := Nat.zero_lt_of_lt ha.initial_lt
    fault_eq := rfl }

theorem addable_of_linkFault {source target : StateId} {symbol : Symbol}
    (h : a.linkFault source target symbol = none) : a.Addable source target symbol := by
  unfold linkFault at h
  split at h
  · cases h
  · rename_i hself
    -- Neither end is missing.
    rw [Option.or_eq_none_iff, missing, missing, ite_eq_left_iff, ite_eq_left_iff] at h
    have hsource : source < a.stateCount := by
      by_contra hlt
      cases h.1 hlt
    have htarget : target < a.stateCount := by
      by_contra hlt
      cases h.2 hlt
    refine ⟨hsource, htarget, ?_⟩
    intro hε heq
    exact hself (Bool.and_eq_true_iff.2 ⟨hε, beq_iff_eq.2 heq⟩)

namespace Intact

/-! ### Building steps -/

theorem pushState (ha : a.Intact) (n : Nat) : (a.pushState n).Intact :=
  WellFormed.pushState ha n

theorem setFinal (ha : a.Intact) (s : StateId) (isFinal : Bool) : (a.setFinal s isFinal).Intact :=
  WellFormed.setFinal ha s isFinal

theorem setInitial (ha : a.Intact) (s : StateId) : (a.setInitial s).Intact :=
  ha

theorem reject (ha : a.Intact) (fault : BuildFault) : (a.reject fault).Intact :=
  ha

theorem withClosures (ha : a.Intact) : a.withClosures.Intact :=
  WellFormed.withClosures ha

/-- A transition is added between states that exist, or the automaton stays as it is. -/
theorem addTransition (ha : a.Intact) (source target : StateId) (symbol : Symbol) :
    (a.addTransition source target symbol).Intact := by
  unfold Automaton.addTransition
  split
  · -- The fault is noted, and nothing else changes.
    exact ha.reject _
  · rename_i hfault
    exact WellFormed.link ha (addable_of_linkFault hfault)

theorem foldl {α : Type} {step : Automaton → α → Automaton}
    (hstep : ∀ {b : Automaton} (x : α), b.Intact → (step b x).Intact) (ha : a.Intact)
    (xs : List α) : (xs.foldl step a).Intact := by
  induction xs generalizing a with
  | nil => exact ha
  | cons x xs ih => exact ih (hstep x ha)

/-- The case in which every step adds one link. -/
theorem foldl_addTransition {α : Type} (link : α → Transition) (ha : a.Intact) (xs : List α) :
    (xs.foldl (fun b x => b.addTransition (link x).source (link x).target (link x).symbol)
      a).Intact :=
  ha.foldl (fun x hb => hb.addTransition (link x).source (link x).target (link x).symbol) xs

/-! ### Operations -/

theorem absorb (ha : a.Intact) (hb : b.Intact) : (a.absorb b).Intact :=
  WellFormed.absorb ha hb

theorem concat (ha : a.Intact) (hb : b.Intact) : (a.concat b).Intact := by
  have hbeside := ha.absorb hb
  unfold Automaton.concat
  split
  · exact hbeside.reject _
  · exact hbeside.foldl (fun f hc => (hc.setFinal f false).addTransition f _ .epsilon) a.finals

theorem union (ha : a.Intact) (hb : b.Intact) (n : Nat) : (a.union b n).1.Intact := by
  have hentered := ((ha.absorb hb).pushState n).addTransition (a.absorb b).stateCount a.initial
    .epsilon
  rw [union_apply]
  refine setInitial ?_ _
  -- The second initial state may be one that does not exist, and then perhaps has no number.
  cases a.shiftFault b with
  | none => exact hentered.addTransition _ _ .epsilon
  | some fault => exact hentered.reject fault

theorem linkAgain (hb : b.Intact) (last f : StateId) : (a.linkAgain last b f).Intact := by
  have hleft := (hb.setFinal f false).addTransition f last .epsilon
  unfold Automaton.linkAgain
  dsimp only
  split
  · exact hleft.addTransition f a.initial .epsilon
  · exact hleft

theorem iterate (ha : a.Intact) (allowEmpty : Bool) (n : Nat) :
    (a.iterate allowEmpty n).1.Intact := by
  have hentered : (a.entered n).Intact :=
    ((ha.pushState n).pushState (n + 1)).addTransition a.stateCount a.initial .epsilon
  have hlinked := hentered.foldl (fun f hb => hb.linkAgain (a := a) (a.stateCount + 1) f) a.finals
  rw [iterate_apply]
  refine setInitial (setFinal ?_ _ true) _
  split
  · exact hlinked.addTransition a.stateCount (a.stateCount + 1) .epsilon
  · exact hlinked

theorem optional (ha : a.Intact) (n : Nat) : (a.optional n).1.Intact :=
  (((ha.pushState n).addTransition a.stateCount a.initial .epsilon).setFinal a.stateCount
    true).setInitial a.stateCount

theorem copy (ha : a.Intact) (register : Bool) (n : Nat) : (a.copy register n).1.Intact := by
  cases register with
  | true => exact (renumbered_shape ha n).wellFormed
  | false => exact (copy_shape ha false n).wellFormed

theorem appendCopies (ha : a.Intact) (count : Nat) {out : Automaton} (hout : out.Intact)
    (n : Nat) : (a.appendCopies count out n).1.Intact := by
  induction count generalizing out n with
  | zero => exact hout
  | succ count ih => exact ih (hout.concat (ha.copy true n)) _

theorem power (ha : a.Intact) (count n : Nat) : (a.power count n).1.Intact := by
  cases count with
  | zero => exact (epsilon_shape n).wellFormed.intact
  | succ count => exact ha.appendCopies count (ha.copy true n) _

theorem stripped (ha : a.Intact) (final : State → Bool) : (a.stripped final).Intact :=
  (stripped_shape ha final).wellFormed

theorem reversedLinks (ha : a.Intact) : a.reversedLinks.Intact := by
  -- No state is final if the initial one does not exist; the links do not ask for it.
  have hunlinked : a.unlinked.Intact := ha.stripped (·.id == a.initial)
  rw [reversedLinks_eq_foldl]
  exact hunlinked.foldl_addTransition flipped _

theorem reverse (ha : a.Intact) (n : Nat) : (a.reverse n).1.Intact := by
  rcases reverse_apply a n with ⟨only, _, hreverse⟩ | hreverse
  · rw [hreverse]
    exact ha.reversedLinks.setInitial only
  · rw [hreverse]
    refine setInitial ?_ _
    exact (ha.reversedLinks.pushState n).foldl_addTransition (bridge _) a.finals

theorem dedupTransitions (ha : a.Intact) : a.dedupTransitions.2.Intact := by
  rw [dedupTransitions_apply]
  split
  · exact ha
  · exact (ha.stripped (·.isFinal)).foldl_addTransition id _

end Intact

theorem Made.intact (h : a.Made) : a.Intact := by
  -- Every constructor is a step that keeps the invariant, closure queries among them.
  induction h with
  | epsilon n => exact (epsilon_shape n).wellFormed.intact
  | single symbol n => exact (single_shape symbol n).wellFormed.intact
  | newState n _ ih => exact ih.pushState n
  | addTransition source target symbol _ ih => exact ih.addTransition source target symbol
  | setFinal s isFinal _ ih => exact ih.setFinal s isFinal
  | setInitial s _ ih => exact ih.setInitial s
  | withClosures _ ih => exact ih.withClosures
  | dedupTransitions _ ih => exact ih.dedupTransitions
  | concat _ _ iha ihb => exact iha.concat ihb
  | union n _ _ iha ihb => exact iha.union ihb n
  | star n _ ih => exact ih.iterate true n
  | plus n _ ih => exact ih.iterate false n
  | optional n _ ih => exact ih.optional n
  | power count n _ ih => exact ih.power count n
  | reverse n _ ih => exact ih.reverse n
  | copy register n _ ih => exact ih.copy register n

/-! ## Queries -/

/-- What the closure of a state is, whether it was kept or is computed now. -/
structure ExactClosure (a : Automaton) (s : StateId) : Prop where
  /-- The transitions are those that the automaton has now. -/
  mem_iff (t : StateId) : t ∈ a.epsilonClosure s ↔ Relation.ReflTransGen a.Bridged s t
  ascending : (a.epsilonClosure s).toList.Pairwise (· < ·)
  /-- The search made now would find the same. -/
  fresh : a.epsilonClosure s = a.closureOf s
  /-- The search ends by itself: more rounds than there are states find no more. -/
  ended {rounds : Nat} : a.stateCount ≤ rounds →
    reachableFrom a.epsilonTargets rounds s = reachableFrom a.epsilonTargets a.stateCount s
  /-- A query does not change the answers of later ones. -/
  asked : a.withClosures.epsilonClosure s = a.epsilonClosure s

theorem Indexed.exactClosure (ha : a.Indexed) {s : StateId} (hs : s < a.stateCount) :
    a.ExactClosure s where
  mem_iff _ := mem_epsilonClosure ha hs
  ascending := (a.epsilonClosure s).ascending
  fresh := by
    apply IdSet.ext
    intro t
    rw [mem_epsilonClosure ha hs, mem_closureOf ha]
  ended := reachableFrom_eq_of_le fun _ => epsilonTargets_lt ha
  asked := rfl

/-- Neither the initial state nor a fault has a part in closures. -/
theorem Intact.exactClosure (ha : a.Intact) {s : StateId} (hs : s < a.stateCount) :
    a.ExactClosure s := by
  have hexact : a.restarted.ExactClosure s := Indexed.exactClosure ha.toIndexed hs
  exact
    { mem_iff := hexact.mem_iff
      ascending := hexact.ascending
      fresh := hexact.fresh
      ended := hexact.ended
      asked := hexact.asked }

theorem epsilonClosure_exact (ha : a.Made) {s : StateId} (hs : s < a.stateCount) :
    a.ExactClosure s :=
  ha.intact.exactClosure hs

/-- Before its last two steps the table of the automaton was kept. -/
def interrupted : Automaton :=
  (((epsilon 0).1.star 1).1.withClosures.newState 3).1.2.withClosures

/-- The last two steps close a circle of empty transitions. -/
def encircled : Automaton :=
  (interrupted.addTransition 2 3 .epsilon).addTransition 3 1 .epsilon

theorem epsilonClosure_encircled :
    encircled.Made ∧ 0 < encircled.stateCount ∧ encircled.ExactClosure 0 ∧
      (interrupted.epsilonClosure 0).toList = [0, 2] ∧
      (encircled.epsilonClosure 0).toList = [0, 1, 2, 3] := by
  have hinterrupted : interrupted.Made :=
    .withClosures (.newState 3 (.withClosures (.star 1 (.epsilon 0))))
  have hmade : encircled.Made :=
    .addTransition 3 1 .epsilon (.addTransition 2 3 .epsilon hinterrupted)
  have hcount : 0 < encircled.stateCount := by
    decide
  refine ⟨hmade, hcount, epsilonClosure_exact hmade hcount, ?_, ?_⟩
  · decide +kernel
  · decide +kernel

end Automaton
end PathQuery

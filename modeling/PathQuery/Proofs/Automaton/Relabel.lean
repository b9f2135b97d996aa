import PathQuery.Proofs.Automaton.Shape

/-!
# Automata with other constraints

How automata are built and closed depends on which symbols are empty, and how edges are tried on the
directions of constraints as well.  What else a constraint says can be replaced before or after.

* `Relabeling`: a replacement of constraints that keeps their direction and their guard and commutes
  with reading them backwards;
* `Symbol.map`, `Transition.map`, `Automaton.map`: the replacement in whole automata;
* `map_concat`, `map_union`, `map_iterate` and so on: it commutes with every operation.
-/

namespace PathQuery

structure Relabeling where
  apply : EdgeConstraint → EdgeConstraint
  direction_apply (c : EdgeConstraint) : (apply c).direction = c.direction
  guard_apply (c : EdgeConstraint) : (apply c).guard = c.guard
  reversed_apply (c : EdgeConstraint) : (apply c).reversed = apply c.reversed

variable (φ : Relabeling)

namespace Symbol

def map : Symbol → Symbol
  | epsilon => epsilon
  | step c => step (φ.apply c)
  | stepAlong c edge => stepAlong (φ.apply c) edge

@[simp] theorem isEpsilon_map (symbol : Symbol) : (symbol.map φ).isEpsilon = symbol.isEpsilon := by
  cases symbol <;> rfl

@[simp] theorem reversed_map (symbol : Symbol) :
    (symbol.map φ).reversed = symbol.reversed.map φ := by
  cases symbol <;> simp only [map, reversed, φ.reversed_apply]

theorem direction_map (symbol : Symbol) :
    (symbol.map φ).constraint.map (·.direction) = symbol.constraint.map (·.direction) := by
  cases symbol <;> simp [map, constraint, φ.direction_apply]

end Symbol

def Transition.map (t : Transition) : Transition :=
  { t with symbol := t.symbol.map φ }

namespace Automaton

def map (a : Automaton) : Automaton :=
  { a with transitions := a.transitions.map (Transition.map φ) }

variable (a b : Automaton)

/-! ## Observations -/

@[simp] theorem stateCount_map : (a.map φ).stateCount = a.stateCount := rfl

@[simp] theorem initial_map : (a.map φ).initial = a.initial := rfl

@[simp] theorem finals_map : (a.map φ).finals = a.finals := rfl

@[simp] theorem missing_map (s : StateId) : (a.map φ).missing s = a.missing s := rfl

theorem outTransitions_map (s : StateId) :
    (a.map φ).outTransitions s = (a.outTransitions s).map (Transition.map φ) := by
  unfold outTransitions
  simp only [map]
  split
  · rfl
  · simp only [Array.getElem?_map, List.map_filterMap]

@[simp] theorem closureTable_map : (a.map φ).closureTable = a.closureTable := by
  have htargets : (a.map φ).epsilonTargets = a.epsilonTargets := by
    funext s
    simp only [epsilonTargets, outTransitions_map, List.filterMap_map]
    congr 1
    funext t
    simp [Transition.map]
  have hclosure : (a.map φ).closureOf = a.closureOf := by
    funext s
    rw [closureOf, closureOf, htargets, stateCount_map]
  unfold closureTable
  rw [hclosure]
  rfl

@[simp] theorem epsilonClosure_map (s : StateId) :
    (a.map φ).epsilonClosure s = a.epsilonClosure s := by
  rw [epsilonClosure, epsilonClosure, closureTable_map]

@[simp] theorem map_withClosures : a.withClosures.map φ = (a.map φ).withClosures := by
  rw [withClosures, withClosures, closureTable_map]
  rfl

/-! ## Building steps -/

@[simp] theorem map_pushState (n : Nat) : (a.pushState n).map φ = (a.map φ).pushState n := rfl

@[simp] theorem map_setFinal (s : StateId) (isFinal : Bool) :
    (a.setFinal s isFinal).map φ = (a.map φ).setFinal s isFinal := rfl

@[simp] theorem map_setInitial (s : StateId) :
    (a.setInitial s).map φ = (a.map φ).setInitial s := rfl

@[simp] theorem map_reject (fault : BuildFault) :
    (a.reject fault).map φ = (a.map φ).reject fault := rfl

theorem map_addTransition (source target : StateId) (symbol : Symbol) :
    (a.addTransition source target symbol).map φ =
      (a.map φ).addTransition source target (symbol.map φ) := by
  have hfault : (a.map φ).linkFault source target (symbol.map φ) =
      a.linkFault source target symbol := by
    simp only [linkFault, Symbol.isEpsilon_map, missing_map]
  have hlink : (a.link source target symbol).map φ =
      (a.map φ).link source target (symbol.map φ) := by
    simp [link, map, Transition.map]
  unfold addTransition
  rw [hfault]
  split
  · rfl
  · exact hlink

@[simp] theorem map_addEpsilon (source target : StateId) :
    (a.addTransition source target .epsilon).map φ =
      (a.map φ).addTransition source target .epsilon :=
  map_addTransition φ a source target .epsilon

@[simp] theorem map_absorb : (a.absorb b).map φ = (a.map φ).absorb (b.map φ) := by
  have hshift : ∀ n, Transition.map φ ∘ shiftTransition n = shiftTransition n ∘ Transition.map φ :=
    fun _ => rfl
  simp only [absorb, map, Array.map_append, Array.map_map, hshift, Array.size_map]

/-- A chain of steps commutes with the replacement if each of them does. -/
theorem map_foldl {β : Type} {f : Automaton → β → Automaton}
    (h : ∀ (a : Automaton) (x : β), (f a x).map φ = f (a.map φ) x) (xs : List β) (a : Automaton) :
    (xs.foldl f a).map φ = xs.foldl f (a.map φ) :=
  (List.foldl_hom (Automaton.map φ) fun a x => (h a x).symm).symm

/-! ## Operations -/

theorem map_concat : (a.concat b).map φ = (a.map φ).concat (b.map φ) := by
  have hfault : (a.map φ).shiftFault (b.map φ) = a.shiftFault b := rfl
  simp only [concat, hfault]
  split
  · rw [map_reject, map_absorb]
  · rw [map_foldl φ (fun c f => by rw [map_addEpsilon, map_setFinal]) a.finals, map_absorb]
    rfl

theorem map_epsilon_apply (n : Nat) : (epsilon n).1.map φ = (epsilon n).1 := by
  have hempty : Automaton.map φ { states := #[], transitions := #[], initial := 0 } =
      { states := #[], transitions := #[], initial := 0 } := by
    rw [map, Array.map_empty]
  change ((pushState _ n).setFinal 0 true).map φ = (pushState _ n).setFinal 0 true
  rw [map_setFinal, map_pushState, hempty]

theorem map_epsilon : Automaton.map φ <$> epsilon = epsilon := by
  funext n
  exact Prod.ext (map_epsilon_apply φ n) rfl

theorem map_single (symbol : Symbol) :
    Automaton.map φ <$> single symbol = single (symbol.map φ) := by
  funext n
  refine Prod.ext ?_ rfl
  change (((((epsilon n).1.setFinal 0 false).pushState (n + 1)).setFinal 1 true).addTransition 0 1
    symbol).map φ = ((((epsilon n).1.setFinal 0 false).pushState (n + 1)).setFinal 1
      true).addTransition 0 1 (symbol.map φ)
  rw [map_addTransition, map_setFinal, map_pushState, map_setFinal, map_epsilon_apply]

theorem map_copy (register : Bool) :
    Automaton.map φ <$> a.copy register = (a.map φ).copy register := by
  funext n
  cases register <;> rfl

theorem map_union : Automaton.map φ <$> a.union b = (a.map φ).union (b.map φ) := by
  have hfault : (a.map φ).shiftFault (b.map φ) = a.shiftFault b := rfl
  funext n
  refine Prod.ext ?_ rfl
  change (a.union b n).1.map φ = ((a.map φ).union (b.map φ) n).1
  rw [union_apply, union_apply, hfault]
  cases a.shiftFault b <;> simp

theorem map_iterate (allowEmpty : Bool) :
    Automaton.map φ <$> a.iterate allowEmpty = (a.map φ).iterate allowEmpty := by
  funext n
  refine Prod.ext ?_ rfl
  change (a.iterate allowEmpty n).1.map φ = ((a.map φ).iterate allowEmpty n).1
  have hagain : (a.map φ).linkAgain = a.linkAgain := rfl
  have hlinked : (a.finals.foldl (a.linkAgain (a.stateCount + 1)) (a.entered n)).map φ =
      a.finals.foldl (a.linkAgain (a.stateCount + 1)) ((a.map φ).entered n) := by
    rw [map_foldl]
    · simp [entered]
    · intro c f
      unfold linkAgain
      split <;> simp
  rw [iterate_apply, iterate_apply, hagain, finals_map, stateCount_map, ← hlinked]
  split <;> simp

theorem map_optional : Automaton.map φ <$> a.optional = (a.map φ).optional := by
  funext n
  refine Prod.ext ?_ rfl
  change ((((a.pushState n).addTransition a.stateCount a.initial .epsilon).setFinal a.stateCount
    true).setInitial a.stateCount).map φ = _
  rw [map_setInitial, map_setFinal, map_addEpsilon, map_pushState]
  rfl

theorem map_appendCopies (count : Nat) (out : Automaton) :
    Automaton.map φ <$> a.appendCopies count out =
      (a.map φ).appendCopies count (out.map φ) := by
  induction count generalizing out with
  | zero => rfl
  | succ count ih =>
    simp only [appendCopies, map_bind, ← map_copy, ih, map_concat, bind_map_left]

theorem map_power (count : Nat) : Automaton.map φ <$> a.power count = (a.map φ).power count := by
  cases count with
  | zero => exact map_epsilon φ
  | succ count => simp only [power, map_bind, map_appendCopies, ← map_copy, bind_map_left]

theorem map_reversedLinks : a.reversedLinks.map φ = (a.map φ).reversedLinks := by
  have hflipped : ∀ t : Transition, flipped (t.map φ) = (flipped t).map φ := by
    intro t
    simp only [flipped, Transition.map, Symbol.reversed_map]
  have hstep : ∀ (b : Automaton) (t : Transition),
      (b.map φ).addTransition (flipped (t.map φ)).source (flipped (t.map φ)).target
          (flipped (t.map φ)).symbol =
        (b.addTransition (flipped t).source (flipped t).target (flipped t).symbol).map φ := by
    intro b t
    rw [map_addTransition, hflipped]
    rfl
  have hunlinked : a.unlinked.map φ = (a.map φ).unlinked := by
    simp only [map, unlinked, Array.map_empty]
  have hlist : (a.map φ).transitions.toList = a.transitions.toList.map (Transition.map φ) :=
    Array.toList_map
  rw [reversedLinks_eq_foldl, reversedLinks_eq_foldl, hlist, List.foldl_map, ← hunlinked,
    List.foldl_hom (Automaton.map φ) hstep]

theorem map_reverse : Automaton.map φ <$> a.reverse = (a.map φ).reverse := by
  have hfresh : ∀ (finals : List StateId) (n : Nat), ((finals.foldl
      (fun b f => b.addTransition a.reversedLinks.stateCount f .epsilon)
        (a.reversedLinks.pushState n)).setInitial a.reversedLinks.stateCount).map φ =
      (finals.foldl (fun b f => b.addTransition (a.map φ).reversedLinks.stateCount f .epsilon)
        ((a.map φ).reversedLinks.pushState n)).setInitial (a.map φ).reversedLinks.stateCount := by
    intro finals n
    rw [map_setInitial, map_foldl φ (fun b f => map_addEpsilon φ b _ f), map_pushState,
      ← map_reversedLinks, stateCount_map]
  unfold reverse
  rw [finals_map]
  rcases a.finals with _ | ⟨f, _ | ⟨f', fs⟩⟩
  · funext n
    exact Prod.ext (hfresh [] n) rfl
  · rw [← map_reversedLinks]
    rfl
  · funext n
    exact Prod.ext (hfresh (f :: f' :: fs) n) rfl

end Automaton

end PathQuery

import PathQuery.Proofs.Automaton.Shape

/-!
# Serials

* `Automaton.serials`: the serials of an automaton, in the order of its states;
* `Fresh.Draws`: what is made has given serials, and after them those that were drawn for it;
* `draws_copy`, `draws_union` and so on: each operation with the serials that it takes over;
* `Numbered`: serials of which none occurs twice and none is still to be given out;
* `Numbered.draw`: further serials keep this.
-/

namespace PathQuery

/-! ## Serials of automata -/

namespace Automaton

def serials (a : Automaton) : List Nat :=
  a.states.toList.map (·.serial)

variable (a b : Automaton)

/-- States that are changed in place keep their serials. -/
theorem serials_modify (states : Array State) (f : State → State) (s : StateId)
    (hf : ∀ state, (f state).serial = state.serial) :
    (states.modify s f).toList.map (·.serial) = states.toList.map (·.serial) := by
  refine List.ext_getElem? fun i => ?_
  simp only [Array.toList_modify, List.getElem?_map, List.getElem?_modify, Option.map_eq_map,
    Option.map_map]
  congr 1
  funext state
  simp only [Function.comp_apply]
  split
  · exact hf state
  · rfl

@[simp] theorem serials_pushState (n : Nat) : (a.pushState n).serials = a.serials ++ [n] := by
  simp [serials, pushState]

@[simp] theorem serials_setFinal (s : StateId) (isFinal : Bool) :
    (a.setFinal s isFinal).serials = a.serials :=
  serials_modify a.states _ s fun _ => rfl

@[simp] theorem serials_setInitial (s : StateId) : (a.setInitial s).serials = a.serials :=
  rfl

@[simp] theorem serials_reject (fault : BuildFault) : (a.reject fault).serials = a.serials :=
  rfl

@[simp] theorem serials_link (source target : StateId) (symbol : Symbol) :
    (a.link source target symbol).serials = a.serials := by
  refine (serials_modify _ _ target ?_).trans (serials_modify a.states _ source ?_)
  · exact fun _ => rfl
  · exact fun _ => rfl

@[simp] theorem serials_addTransition (source target : StateId) (symbol : Symbol) :
    (a.addTransition source target symbol).serials = a.serials := by
  unfold addTransition
  split
  · exact a.serials_reject _
  · exact a.serials_link source target symbol

@[simp] theorem serials_absorb : (a.absorb b).serials = a.serials ++ b.serials := by
  simp [serials, absorb, shiftState, Function.comp_def]

theorem serials_foldl {α : Type} {step : Automaton → α → Automaton}
    (hstep : ∀ b x, (step b x).serials = b.serials) (xs : List α) :
    (xs.foldl step a).serials = a.serials := by
  induction xs generalizing a with
  | nil => rfl
  | cons x xs ih =>
    rw [List.foldl_cons, ih, hstep]

@[simp] theorem serials_concat : (a.concat b).serials = a.serials ++ b.serials := by
  unfold concat
  split
  · rw [serials_reject, serials_absorb]
  · rw [serials_foldl, serials_absorb]
    intro c f
    rw [serials_addTransition, serials_setFinal]

@[simp] theorem serials_linkAgain (last f : StateId) :
    (a.linkAgain last b f).serials = b.serials := by
  unfold linkAgain
  dsimp only
  split <;> simp

@[simp] theorem serials_reversedLinks : a.reversedLinks.serials = a.serials := by
  rw [reversedLinks_eq_foldl, serials_foldl]
  · simp [serials, unlinked]
  · intro b t
    rw [serials_addTransition]

theorem serials_renumbered (n : Nat) :
    (a.renumbered n).serials = List.range' n a.stateCount := by
  refine List.ext_getElem (by simp [serials, renumbered, stateCount]) ?_
  intro i _ _
  simp [serials, renumbered]

end Automaton

/-! ## Drawn serials -/

/-- The serials of what is made are the given ones, and those that are drawn. -/
def Fresh.Draws (given : List Nat) (x : Fresh Automaton) : Prop :=
  ∀ n, ∃ k, (x n).2 = n + k ∧ (x n).1.serials = given ++ List.range' n k

namespace Automaton

variable (a b : Automaton)

theorem draws_epsilon : epsilon.Draws [] := by
  intro n
  exact ⟨1, rfl, rfl⟩

theorem draws_single (symbol : Symbol) : (single symbol).Draws [] := by
  intro n
  have hsingle : (single symbol n).1 =
      (((((epsilon n).1.setFinal 0 false).pushState (n + 1)).setFinal 1 true).addTransition 0 1
        symbol) := rfl
  have hepsilon : (epsilon n).1.serials = [n] := rfl
  refine ⟨2, rfl, ?_⟩
  rw [hsingle]
  simp [hepsilon, List.range'_succ]

theorem draws_copy : (a.copy true).Draws [] :=
  fun n => ⟨a.stateCount, rfl, a.serials_renumbered n⟩

theorem draws_union : (a.union b).Draws (a.serials ++ b.serials) := by
  intro n
  refine ⟨1, rfl, ?_⟩
  rw [union_apply]
  cases a.shiftFault b <;> simp

theorem draws_iterate (allowEmpty : Bool) : (a.iterate allowEmpty).Draws a.serials := by
  intro n
  refine ⟨2, rfl, ?_⟩
  rw [iterate_apply]
  have hlinked : (a.finals.foldl (a.linkAgain (a.stateCount + 1)) (a.entered n)).serials =
      a.serials ++ List.range' n 2 := by
    rw [serials_foldl _ fun b f => a.serials_linkAgain b _ f]
    simp [entered, List.range'_succ]
  cases allowEmpty <;> simpa using hlinked

theorem draws_optional : a.optional.Draws a.serials := by
  intro n
  refine ⟨1, rfl, ?_⟩
  change (setInitial (setFinal (addTransition (a.pushState n) _ _ _) _ _) _).serials = _
  simp

theorem draws_reverse : a.reverse.Draws a.serials := by
  unfold reverse
  split
  -- With one final state no state is added.
  · intro n
    refine ⟨0, rfl, a.serials_reversedLinks.trans ?_⟩
    exact (List.append_nil a.serials).symm
  · intro n
    refine ⟨1, rfl, ?_⟩
    refine (serials_foldl _ (fun b f => b.serials_addTransition _ f _) _).trans ?_
    exact (a.reversedLinks.serials_pushState n).trans (by simp)

theorem draws_appendCopies (count : Nat) (out : Automaton) :
    (a.appendCopies count out).Draws out.serials := by
  induction count generalizing out with
  | zero => exact fun n => ⟨0, rfl, (List.append_nil _).symm⟩
  | succ count ih =>
    intro n
    rcases ih (out.concat (a.renumbered n)) (n + a.stateCount) with ⟨k, hnext, hserials⟩
    refine ⟨a.stateCount + k, hnext.trans (Nat.add_assoc _ _ _), hserials.trans ?_⟩
    rw [serials_concat, serials_renumbered, List.append_assoc, List.range'_append_1]

theorem draws_power (count : Nat) : (a.power count).Draws [] := by
  cases count with
  | zero => exact draws_epsilon
  | succ count =>
    intro n
    rcases a.draws_appendCopies count (a.renumbered n) (n + a.stateCount) with
      ⟨k, hnext, hserials⟩
    refine ⟨a.stateCount + k, hnext.trans (Nat.add_assoc _ _ _), hserials.trans ?_⟩
    rw [serials_renumbered, List.range'_append_1, List.nil_append]

end Automaton

/-! ## Distinct serials -/

structure Numbered (next : Nat) (serials : List Nat) : Prop where
  nodup : serials.Nodup
  lt_next {n : Nat} : n ∈ serials → n < next

namespace Numbered

variable {next next' : Nat} {serials : List Nat}

theorem nil (next : Nat) : Numbered next [] :=
  ⟨.nil, nofun⟩

theorem mono (h : Numbered next serials) (hle : next ≤ next') : Numbered next' serials :=
  ⟨h.nodup, fun hn => Nat.lt_of_lt_of_le (h.lt_next hn) hle⟩

theorem draw (h : Numbered next serials) (k : Nat) :
    Numbered (next + k) (serials ++ List.range' next k) where
  nodup := by
    refine List.nodup_append.2 ⟨h.nodup, List.nodup_range', ?_⟩
    rintro n hn _ hdrawn rfl
    have := h.lt_next hn
    have := (List.mem_range'_1.1 hdrawn).1
    lia
  lt_next {n} hn := by
    rcases List.mem_append.1 hn with hn | hdrawn
    · exact Nat.lt_of_lt_of_le (h.lt_next hn) (Nat.le_add_right next k)
    · exact (List.mem_range'_1.1 hdrawn).2

end Numbered
end PathQuery

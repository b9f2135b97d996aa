import PathQuery.Proofs.Automaton.Restriction
import PathQuery.Proofs.Path.Acceptance

/-!
# Steps taken backwards

A reversed constraint turns the direction and changes the end at which roles are looked up, and its
label gets the other arrow.  Labels are texts, so a label that did not start with the arrow of its
direction would be left as it is.

* `EdgeConstraint.Labelled`: the label starts with the arrow;
* `reversed_reversed`: then two reversals take each other back;
* `EdgeConstraint.Compiled`: the constraints that steps of path descriptions have;
* `reversal_mirrors`: all of them are labelled, and a reversed one matches an edge from the other
  end.
-/

namespace PathQuery

@[simp] theorem RoleEnd.opposite_opposite (place : RoleEnd) : place.opposite.opposite = place := by
  cases place <;> rfl

@[simp] theorem RoleSet.reversed_reversed (roles : RoleSet) : roles.reversed.reversed = roles := by
  simp [reversed]

namespace EdgeConstraint

variable {c : EdgeConstraint}

/-! ## Labels -/

def Labelled (c : EdgeConstraint) : Prop :=
  c.direction.arrow.toList <+: c.label

theorem labelled_wildcard (direction : Direction) : (wildcard direction).Labelled :=
  List.prefix_rfl

theorem labelled_resolve (g : Graph) (direction : Direction) (types : List TypeTerm)
    (roles : List String) (guard : Option Guard) :
    (resolve g direction types roles guard).Labelled :=
  ⟨_, (List.append_assoc _ _ _).symm⟩

/-- What stands after the arrow is kept. -/
theorem label_reversed {rest : List Char} (h : c.label = c.direction.arrow.toList ++ rest) :
    c.reversed.label = c.reversed.direction.arrow.toList ++ rest := by
  have hprefix : c.direction.arrow.toList.isPrefixOf c.label = true :=
    List.isPrefixOf_iff_prefix.2 ⟨rest, h.symm⟩
  simp only [reversed, hprefix, if_true]
  rw [h, List.drop_left]

theorem Labelled.reversed (h : c.Labelled) : c.reversed.Labelled := by
  obtain ⟨rest, hrest⟩ := h
  exact ⟨rest, (label_reversed hrest.symm).symm⟩

theorem reversed_reversed (h : c.Labelled) : c.reversed.reversed = c := by
  obtain ⟨rest, hrest⟩ := h
  have hroles : (c.roles.map RoleSet.reversed).map RoleSet.reversed = c.roles := by
    cases c.roles <;> simp
  have hlabel : c.reversed.reversed.label = c.label :=
    calc
      c.reversed.reversed.label = c.direction.reversed.reversed.arrow.toList ++ rest :=
        label_reversed (label_reversed hrest.symm)
      _ = c.direction.arrow.toList ++ rest := by rw [Direction.reversed_reversed]
      _ = c.label := hrest
  calc
    c.reversed.reversed =
        ⟨c.direction.reversed.reversed, c.types, (c.roles.map RoleSet.reversed).map RoleSet.reversed,
          c.guard, c.reversed.reversed.label⟩ := rfl
    _ = c := by rw [Direction.reversed_reversed, hroles, hlabel]

/-! ## Constraints of steps -/

/-- Resolved in whatever graph, and reversed as often as the step was transposed. -/
inductive Compiled : EdgeConstraint → Prop where
  | wildcard (direction : Direction) : Compiled (wildcard direction)
  | resolve (g : Graph) (direction : Direction) (types : List TypeTerm) (roles : List String)
      (guard : Option Guard) : Compiled (resolve g direction types roles guard)
  | reversed {c : EdgeConstraint} : Compiled c → Compiled c.reversed

theorem Compiled.labelled (h : c.Compiled) : c.Labelled := by
  induction h with
  | wildcard direction => exact labelled_wildcard direction
  | resolve g direction types roles guard =>
    exact labelled_resolve g direction types roles guard
  | reversed _ ih => exact ih.reversed

theorem reversal_mirrors (h : c.Compiled) :
    (∀ (g : Graph) (e : Incidence),
      c.reversed.matchesStructure g e.reversed = c.matchesStructure g e) ∧
    c.reversed.reversed = c ∧ c.direction.arrow.toList <+: c.label :=
  ⟨c.matchesStructure_reversed, reversed_reversed h.labelled, h.labelled⟩

/-- A step to a stop, not by road and under a condition, transposed once. -/
def stopBehind : EdgeConstraint :=
  (resolve harbour .outgoing [⟨"road", true⟩] ["stop"] (some ⟨3, some "e"⟩)).reversed

theorem reversal_mirrors_stopBehind :
    stopBehind.Compiled ∧ stopBehind.label = "<--{^road, @stop} [#3]".toList ∧
      stopBehind.reversed.matchesStructure harbour ⟨0, true⟩ =
        stopBehind.matchesStructure harbour ⟨0, false⟩ ∧
      stopBehind.matchesStructure harbour ⟨0, false⟩ = true ∧
      stopBehind.reversed.reversed = stopBehind := by
  have hcompiled : stopBehind.Compiled := .reversed (.resolve _ _ _ _ _)
  have hmirrors := reversal_mirrors hcompiled
  exact ⟨hcompiled, by decide +kernel, hmirrors.1 harbour ⟨0, false⟩, by decide +kernel,
    hmirrors.2.1⟩

end EdgeConstraint

end PathQuery

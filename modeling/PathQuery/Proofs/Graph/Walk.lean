import Mathlib.Data.List.Basic
import PathQuery.Graph.Basic

/-!
# Walks

A walk is a sequence of incidences in which each one starts where the one before it arrived.

* `Graph.Walk g v es w`: the incidences `es` lead from `v` to `w`;
* `walk_append_iff`: walks can be cut and joined;
* `Walk.backwards`: the incidences of a walk, met from their other ends and in the opposite order,
  lead back.
-/

namespace PathQuery

/-- The same edges from the last to the first, each met from its other end. -/
def backwards (es : List Incidence) : List Incidence :=
  es.reverse.map Incidence.reversed

theorem backwards_append (es fs : List Incidence) :
    backwards (es ++ fs) = backwards fs ++ backwards es := by
  simp [backwards]

theorem backwards_cons (e : Incidence) (es : List Incidence) :
    backwards (e :: es) = backwards es ++ [e.reversed] := by
  simp [backwards]

@[simp] theorem backwards_backwards (es : List Incidence) : backwards (backwards es) = es := by
  induction es with
  | nil =>
    rfl
  | cons e es ih =>
    rw [backwards_cons, backwards_append, ih]
    simp [backwards]

@[simp] theorem length_backwards (es : List Incidence) : (backwards es).length = es.length := by
  simp [backwards]

namespace Graph

inductive Walk (g : Graph) : Nat → List Incidence → Nat → Prop where
  | nil (v : Nat) : Walk g v [] v
  | cons {v u w : Nat} {e : Incidence} {es : List Incidence} :
      g.this e = some v → g.that e = some u → Walk g u es w → Walk g v (e :: es) w

theorem this_reversed (g : Graph) (e : Incidence) : g.this e.reversed = g.that e := by
  rcases e with ⟨edge, normal⟩
  cases normal <;> rfl

theorem that_reversed (g : Graph) (e : Incidence) : g.that e.reversed = g.this e := by
  rcases e with ⟨edge, normal⟩
  cases normal <;> rfl

variable {g : Graph}

theorem walk_nil_iff {v w : Nat} : g.Walk v [] w ↔ w = v := by
  constructor
  · intro h
    cases h with
    | nil => rfl
  · rintro rfl
    exact .nil w

theorem walk_singleton_iff {v w : Nat} {e : Incidence} :
    g.Walk v [e] w ↔ g.this e = some v ∧ g.that e = some w := by
  constructor
  · intro h
    cases h with
    | cons hthis hthat hrest =>
      rw [walk_nil_iff.1 hrest]
      exact ⟨hthis, hthat⟩
  · rintro ⟨hthis, hthat⟩
    exact .cons hthis hthat (.nil w)

theorem walk_append_iff {v w : Nat} {es fs : List Incidence} :
    g.Walk v (es ++ fs) w ↔ ∃ u, g.Walk v es u ∧ g.Walk u fs w := by
  induction es generalizing v with
  | nil =>
    constructor
    · intro h
      exact ⟨v, .nil v, h⟩
    · rintro ⟨u, hnil, h⟩
      rwa [walk_nil_iff.1 hnil] at h
  | cons e es ih =>
    constructor
    · intro h
      cases h with
      | cons hthis hthat hrest =>
        rcases ih.1 hrest with ⟨u, hu, hw⟩
        exact ⟨u, .cons hthis hthat hu, hw⟩
    · rintro ⟨u, hu, hw⟩
      cases hu with
      | cons hthis hthat hrest =>
        exact .cons hthis hthat (ih.2 ⟨u, hrest, hw⟩)

theorem Walk.backwards {v w : Nat} {es : List Incidence} (h : g.Walk v es w) :
    g.Walk w (backwards es) v := by
  induction h with
  | nil v =>
    exact .nil v
  | cons hthis hthat _ ih =>
    rw [backwards_cons]
    refine walk_append_iff.2 ⟨_, ih, ?_⟩
    exact walk_singleton_iff.2 ⟨by rw [this_reversed, hthat], by rw [that_reversed, hthis]⟩

end Graph
end PathQuery

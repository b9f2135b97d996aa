import PathQuery.Evaluation.Evaluator
import PathQuery.Proofs.Graph.Walk

/-!
# When a transition takes an edge

* `Symbol.fits`: direction, types and roles of the symbol's constraint allow the edge;
* `fits_reversed`: a symbol allows an edge from one end if the reversed symbol allows it from the
  other one;
* `admits_incidenceDirection`: the incidences that a traversal looks at leave out none that fits;
* `fits_of_takes`: an edge that is taken fits;
* `takes_eq_pure`: without a guard and without a fixed edge this is all that counts.
-/

namespace PathQuery

/-! ## Fitting edges -/

namespace EdgeConstraint

theorem accepts_reversed (roles : RoleSet) (g : Graph) (type : NameId) (e : Incidence) :
    roles.reversed.accepts g type e.reversed = roles.accepts g type e := by
  rcases e with ⟨edge, normal⟩
  rcases roles with ⟨ids, place⟩
  cases place <;> cases normal <;> rfl

theorem matchesStructure_reversed (c : EdgeConstraint) (g : Graph) (e : Incidence) :
    c.reversed.matchesStructure g e.reversed = c.matchesStructure g e := by
  have hdirection : c.reversed.direction.admits e.reversed.normal = c.direction.admits e.normal :=
    Direction.admits_reversed c.direction e.normal
  have htypes : c.reversed.types = c.types := rfl
  have hedge : e.reversed.edge = e.edge := rfl
  have hroles : c.reversed.roles = c.roles.map RoleSet.reversed := rfl
  simp only [matchesStructure, hdirection, htypes, hedge, hroles]
  cases c.roles with
  | none => rfl
  | some roles => simp only [Option.map_some, Option.isNone_some, accepts_reversed]

end EdgeConstraint

/-- All that a symbol asks of an edge but its guard and its fixed edge. -/
def Symbol.fits (g : Graph) (symbol : Symbol) (e : Incidence) : Bool :=
  symbol.constraint.any (·.matchesStructure g e)

theorem Symbol.fits_reversed (g : Graph) (symbol : Symbol) (e : Incidence) :
    symbol.reversed.fits g e.reversed = symbol.fits g e := by
  cases symbol with
  | epsilon => rfl
  | step c => exact c.matchesStructure_reversed g e
  | stepAlong c _ => exact c.matchesStructure_reversed g e

theorem Symbol.admits_of_fits {g : Graph} {symbol : Symbol} {e : Incidence}
    (h : symbol.fits g e = true) :
    ∃ c, symbol.constraint = some c ∧ c.direction.admits e.normal = true := by
  rw [fits, Option.any_eq_true] at h
  rcases h with ⟨c, hc, hmatch⟩
  rw [EdgeConstraint.matchesStructure, Bool.and_eq_true] at hmatch
  exact ⟨c, hc, hmatch.1⟩

theorem admits_incidenceDirection {g : Graph} {ts : List Transition} {t : Transition}
    {e : Incidence} (ht : t ∈ ts) (h : t.symbol.fits g e = true) :
    (Traversal.incidenceDirection ts).admits e.normal = true := by
  rcases Symbol.admits_of_fits h with ⟨c, hc, hadmits⟩
  have hdirection : ∀ {d : Direction}, (ts.map fun t => t.symbol.constraint.map (·.direction)).all
      (· == some d) = true → c.direction = d := by
    intro d hall
    have := List.all_eq_true.1 hall _ (List.mem_map.2 ⟨t, ht, rfl⟩)
    rw [hc] at this
    simpa using this
  unfold Traversal.incidenceDirection
  simp only [Bool.and_eq_true]
  split
  · rename_i hall
    rwa [← hdirection hall.1]
  · split
    · rename_i hall
      rwa [← hdirection hall.1]
    · rfl

/-! ## Taken edges -/

/-- Neither guarded nor bound to one edge. -/
def Symbol.isPlain : Symbol → Bool
  | .epsilon => true
  | .step c => c.guard.isNone
  | .stepAlong _ _ => false

namespace Evaluation

variable (scope : Scope) (result : NodeId → Eval Value)

theorem fits_of_takes {t : Transition} {v : Nat} {e : Incidence} {w : Workspace}
    (hsymbol : t.symbol.isEpsilon = false) (h : (takes scope result t v e w).1 = .ok true) :
    scope.graph.this e = some v ∧ t.symbol.fits scope.graph e = true := by
  rcases t with ⟨source, target, symbol⟩
  cases symbol with
  | epsilon =>
    exact absurd hsymbol Bool.noConfusion
  | step c =>
    by_cases hfits : (scope.graph.this e == some v && c.matchesStructure scope.graph e) = true
    · rw [Bool.and_eq_true, beq_iff_eq] at hfits
      exact hfits
    · simp only [takes, accepts, if_neg hfits] at h
      exact absurd h nofun
  | stepAlong c node =>
    by_cases hfits : (scope.graph.this e == some v && c.matchesStructure scope.graph e) = true
    · rw [Bool.and_eq_true, beq_iff_eq] at hfits
      exact hfits
    · simp only [takes, accepts, if_neg hfits] at h
      exact absurd h nofun

theorem takes_eq_pure {t : Transition} (hsymbol : t.symbol.isEpsilon = false)
    (hplain : t.symbol.isPlain = true) (v : Nat) (e : Incidence) :
    takes scope result t v e =
      pure (scope.graph.this e == some v && t.symbol.fits scope.graph e) := by
  rcases t with ⟨source, target, symbol⟩
  cases symbol with
  | epsilon =>
    exact absurd hsymbol Bool.noConfusion
  | step c =>
    have hguard : c.guard = none := Option.isNone_iff_eq_none.1 hplain
    have hfits : (Symbol.step c).fits scope.graph e = c.matchesStructure scope.graph e := rfl
    simp only [takes, accepts, hguard, guardAccepts, hfits]
    split
    · rename_i h
      rw [h]
    · rename_i h
      rw [Bool.not_eq_true] at h
      rw [h]
  | stepAlong c node =>
    exact absurd hplain Bool.noConfusion

end Evaluation

end PathQuery

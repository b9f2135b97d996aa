import PathQuery.Proofs.Evaluation.Queries

/-!
# Handles that stand for each other

Two evaluations give out handles from where their supplies stand.  What was there before has a
handle that both of them know.

* `Pairing`: the handles that were given out and stand for each other;
* `Pairing.correspondence`: the correspondence of two evaluations that go on from there;
* `Pairing.upTo`, `Pairing.extend`: less of a pairing, and more of it;
* `Pairing.settled`: the pairing of the handles that were there before;
* `Value.Before`: values with such handles only;
* `FunctionLibrary.Uniform`: functions that hand out nothing else than what they are given or what
  was there before.
-/

namespace PathQuery

/-- The handles below two bounds that stand for each other. -/
structure Pairing (bound bound' : Nat) where
  pairs : Nat → Nat → Prop
  one_to_one {h h' k k' : Nat} : pairs h h' → pairs k k' → (h = k ↔ h' = k')
  lt_bound {h h' : Nat} : pairs h h' → h < bound
  lt_bound' {h h' : Nat} : pairs h h' → h' < bound'

namespace Pairing

variable {bound bound' : Nat}

/-- The next handles stand for each other too. -/
def correspondence (P : Pairing bound bound') (region : NodeId → Prop) : Correspondence where
  handles h h' := P.pairs h h' ∨ ∃ n, h = bound + n ∧ h' = bound' + n
  start := bound
  start' := bound'
  region := region
  exact := False
  one_to_one := by
    rintro h h' k k' (hh | ⟨m, rfl, rfl⟩) (hk | ⟨n, rfl, rfl⟩)
    · exact P.one_to_one hh hk
    · have hlt := P.lt_bound hh
      have hlt' := P.lt_bound' hh
      omega
    · have hlt := P.lt_bound hk
      have hlt' := P.lt_bound' hk
      omega
    · omega
  handles_fresh n := .inr ⟨n, rfl, rfl⟩
  eq_of_exact hfalse := hfalse.elim

/-- Only the handles below a limit, as long as the next ones are not given out. -/
def upTo (P : Pairing bound bound') (limit : Nat) {next : Nat} (hnext : bound' ≤ next) :
    Pairing limit next where
  pairs h h' := P.pairs h h' ∧ h < limit
  one_to_one hh hk := P.one_to_one hh.1 hk.1
  lt_bound hh := hh.2
  lt_bound' hh := Nat.lt_of_lt_of_le (P.lt_bound' hh.1) hnext

/-- Some handles that stood for none, and as many new ones. -/
def extend (P : Pairing bound bound') {start start' count next : Nat}
    (hfree : ∀ h h', P.pairs h h' → h < start ∨ start + count ≤ h) (hstart : start + count ≤ bound)
    (hstart' : bound' ≤ start') (hnext : start' + count ≤ next) : Pairing bound next where
  pairs h h' := P.pairs h h' ∨ ∃ n < count, h = start + n ∧ h' = start' + n
  one_to_one := by
    rintro h h' k k' (hh | ⟨m, hm, rfl, rfl⟩) (hk | ⟨n, hn, rfl, rfl⟩)
    · exact P.one_to_one hh hk
    · have hlt := hfree h h' hh
      have hlt' := P.lt_bound' hh
      omega
    · have hlt := hfree k k' hk
      have hlt' := P.lt_bound' hk
      omega
    · omega
  lt_bound := by
    rintro h h' (hh | ⟨n, hn, rfl, -⟩)
    · exact P.lt_bound hh
    · omega
  lt_bound' := by
    rintro h h' (hh | ⟨n, hn, -, rfl⟩)
    · have hlt' := P.lt_bound' hh
      omega
    · omega

/-- The handles below the base are known to both. -/
def settled {base : Nat} (hbound : base ≤ bound) (hbound' : base ≤ bound') :
    Pairing bound bound' where
  pairs h h' := h = h' ∧ h < base
  one_to_one := by
    rintro h _ k _ ⟨rfl, _⟩ ⟨rfl, _⟩
    rfl
  lt_bound := by
    rintro h _ ⟨rfl, hlt⟩
    exact Nat.lt_of_lt_of_le hlt hbound
  lt_bound' := by
    rintro h _ ⟨rfl, hlt⟩
    exact Nat.lt_of_lt_of_le hlt hbound'

end Pairing

theorem Supply.corresponds_start {C : Correspondence} {s s' : Supply} (hexact : ¬ C.exact)
    (hs : s.handles = C.start) (hs' : s'.handles = C.start') : s.Corresponds C s' :=
  ⟨⟨0, hs, hs'⟩, fun he => (hexact he).elim⟩

/-! ## What was there before -/

namespace Value

/-- All automata and path systems in the value have handles below the base. -/
inductive Before (base : Nat) : Value → Prop where
  | simple {v : Value} : v.IsSimple → Before base v
  | automaton {h : Nat} {a : Automaton} : h < base → Before base (.automaton h a)
  | pathSystem {h : Nat} {ps : PathSystem} : h < base → Before base (.pathSystem h ps)
  | list {items : List Value} : (∀ v ∈ items, Before base v) → Before base (.list items)

/-- A correspondence that pairs the handles below the base with themselves. -/
theorem Before.corresponds {base : Nat} {C : Correspondence} {v : Value} (hv : v.Before base)
    (hwithin : v.Within C.region) (hhandles : ∀ h < base, C.handles h h) :
    v.Corresponds C v := by
  induction hwithin with
  | simple hsimple => exact .simple hsimple
  | @automaton h a hsymbols =>
    refine .automaton ?_ ⟨.refl hsymbols, fun _ => rfl⟩
    cases hv with
    | simple hsimple => exact (not_isSimple_automaton _ _ hsimple).elim
    | automaton hlt => exact hhandles h hlt
  | @pathSystem h ps =>
    refine .pathSystem ?_
    cases hv with
    | simple hsimple => exact (not_isSimple_pathSystem _ _ hsimple).elim
    | pathSystem hlt => exact hhandles h hlt
  | @list items _ ih =>
    refine .of_forall₂ (List.forall₂_same.2 ?_)
    intro v hmem
    cases hv with
    | simple hsimple => exact (not_isSimple_list _ hsimple).elim
    | list hitems => exact ih v hmem (hitems v hmem)

end Value

/-- What was there before, and what refers to the region only. -/
structure Value.Given (base : Nat) (region : NodeId → Prop) (v : Value) : Prop where
  before : v.Before base
  within : v.Within region

/-- The functions answer the same to the same in all evaluations that know the handles below the
base, and nothing that refers to other nodes. -/
def FunctionLibrary.Uniform (base : Nat) (region : NodeId → Prop) (functions : FunctionLibrary) :
    Prop :=
  ∀ C : Correspondence, C.region = region → ¬ C.exact → (∀ h < base, C.handles h h) →
    functions.Respects C

theorem FunctionLibrary.uniform_builtin (base : Nat) (region : NodeId → Prop) :
    builtin.Uniform base region :=
  fun C _ _ _ => respects_builtin C

end PathQuery

import PathQuery.Proofs.Automaton.Built
import PathQuery.Proofs.Automaton.Recognizes
import PathQuery.Proofs.Automaton.Words

/-!
# The operations on automata of any shape

The operands need not come from the operations.  They can have any number of final states, an
initial state that is final or is entered again, and cycles of empty transitions.

* `Automaton.Assembled`: all that the building steps and the operations make together;
* `Assembled.wellFormed`: the operations may be applied to all of it;
* `RegularOperations`, `regularOperations`: they compute the regular operations on languages;
* `mirrorImage`, `language_reverse`: the language of the reversed automaton;
* `ReverseLaws`, `reverseLaws`: reversal against sequences of incidences and the other operations.
-/

namespace PathQuery
namespace Automaton

open Computability

variable {β : Type} {matching : Symbol → β → Prop} {a b : Automaton}

/-! ## Automata of any shape -/

instance {source target : StateId} {symbol : Symbol} :
    Decidable (a.Addable source target symbol) :=
  inferInstanceAs (Decidable (_ ∧ _ ∧ (_ → _)))

/-- Steps name states that exist, and no empty transition links a state with itself. -/
inductive Assembled : Automaton → Prop where
  | epsilon (n : Nat) : Assembled (epsilon n).1
  | single (symbol : Symbol) (n : Nat) : Assembled (single symbol n).1
  | newState {a : Automaton} (n : Nat) : Assembled a → Assembled (a.newState n).1.2
  | setFinal {a : Automaton} (s : StateId) (isFinal : Bool) :
      Assembled a → Assembled (a.setFinal s isFinal)
  | setInitial {a : Automaton} {s : StateId} (hs : s < a.stateCount) :
      Assembled a → Assembled (a.setInitial s)
  | addTransition {a : Automaton} {source target : StateId} {symbol : Symbol}
      (h : a.Addable source target symbol) :
      Assembled a → Assembled (a.addTransition source target symbol)
  | withClosures {a : Automaton} : Assembled a → Assembled a.withClosures
  | dedupTransitions {a : Automaton} : Assembled a → Assembled a.dedupTransitions.2
  | concat {a b : Automaton} : Assembled a → Assembled b → Assembled (a.concat b)
  | union {a b : Automaton} (n : Nat) : Assembled a → Assembled b → Assembled (a.union b n).1
  | iterate {a : Automaton} (allowEmpty : Bool) (n : Nat) :
      Assembled a → Assembled (a.iterate allowEmpty n).1
  | optional {a : Automaton} (n : Nat) : Assembled a → Assembled (a.optional n).1
  | power {a : Automaton} (count n : Nat) : Assembled a → Assembled (a.power count n).1
  | reverse {a : Automaton} (n : Nat) : Assembled a → Assembled (a.reverse n).1
  | copy {a : Automaton} (register : Bool) (n : Nat) :
      Assembled a → Assembled (a.copy register n).1

theorem WellFormed.withClosures (ha : a.WellFormed) : a.withClosures.WellFormed where
  toIndexed := ha.toIndexed.withClosures
  inc_eq := ha.inc_eq
  no_loop := ha.no_loop
  fault_eq := ha.fault_eq

theorem Assembled.wellFormed (h : a.Assembled) : a.WellFormed := by
  induction h with
  | epsilon n => exact (epsilon_shape n).wellFormed
  | single symbol n => exact (single_shape symbol n).wellFormed
  | newState n _ ih => exact ih.pushState n
  | setFinal s isFinal _ ih => exact ih.setFinal s isFinal
  | setInitial hs _ ih => exact ih.setInitial hs
  | addTransition h _ ih => exact ih.addTransition h
  | withClosures _ ih => exact ih.withClosures
  | dedupTransitions _ ih => exact (dedupTransitions_shape ih).wellFormed
  | concat _ _ iha ihb => exact (concat_shape iha ihb).wellFormed
  | union n _ _ iha ihb => exact (union_shape iha ihb n).wellFormed
  | iterate allowEmpty n _ ih => exact (iterate_shape ih allowEmpty n).wellFormed
  | optional n _ ih => exact (optional_shape ih n).wellFormed
  | power count n _ ih => exact power_wellFormed ih count n
  | reverse n _ ih => exact reverse_wellFormed ih n
  | copy register n _ ih => exact (copy_shape ih register n).wellFormed

/-! ## Regular operations -/

/-- The automaton is in good order, so its construction did not fail, and reads this language. -/
structure Computes (a : Automaton) (matching : Symbol → β → Prop) (l : Language β) : Prop where
  wellFormed : a.WellFormed
  language_eq : a.language matching = l

theorem WellFormed.computes (ha : a.WellFormed) (matching : Symbol → β → Prop) :
    a.Computes matching (a.language matching) :=
  ⟨ha, rfl⟩

namespace Computes

variable {l m : Language β}

theorem concat (ha : a.Computes matching l) (hb : b.Computes matching m) :
    (a.concat b).Computes matching (l * m) where
  wellFormed := (concat_shape ha.wellFormed hb.wellFormed).wellFormed
  language_eq := by
    rw [language_concat ha.wellFormed hb.wellFormed, ha.language_eq, hb.language_eq]

theorem union (ha : a.Computes matching l) (hb : b.Computes matching m) (n : Nat) :
    (a.union b n).1.Computes matching (l + m) where
  wellFormed := (union_shape ha.wellFormed hb.wellFormed n).wellFormed
  language_eq := by
    rw [language_union ha.wellFormed hb.wellFormed, ha.language_eq, hb.language_eq]

theorem star (ha : a.Computes matching l) (n : Nat) : (a.star n).1.Computes matching l∗ where
  wellFormed := (iterate_shape ha.wellFormed true n).wellFormed
  language_eq := by
    rw [language_star ha.wellFormed, ha.language_eq]

theorem plus (ha : a.Computes matching l) (n : Nat) :
    (a.plus n).1.Computes matching (l * l∗) where
  wellFormed := (iterate_shape ha.wellFormed false n).wellFormed
  language_eq := by
    rw [language_plus ha.wellFormed, ha.language_eq]

theorem optional (ha : a.Computes matching l) (n : Nat) :
    (a.optional n).1.Computes matching (l + 1) where
  wellFormed := (optional_shape ha.wellFormed n).wellFormed
  language_eq := by
    rw [language_optional ha.wellFormed, ha.language_eq]

theorem power (ha : a.Computes matching l) (count n : Nat) :
    (a.power count n).1.Computes matching (l ^ count) where
  wellFormed := power_wellFormed ha.wellFormed count n
  language_eq := by
    rw [language_power ha.wellFormed, ha.language_eq]

theorem copy (ha : a.Computes matching l) (register : Bool) (n : Nat) :
    (a.copy register n).1.Computes matching l where
  wellFormed := (copy_shape ha.wellFormed register n).wellFormed
  language_eq := (language_copy ha.wellFormed register n).trans ha.language_eq

end Computes

/-- What the operations compute, whatever the serials.  Where a symbol matches itself only, words
consist of symbols. -/
structure RegularOperations (matching : Symbol → β → Prop) (a b : Automaton) : Prop where
  concat : (a.concat b).Computes matching (a.language matching * b.language matching)
  union (n : Nat) :
    (a.union b n).1.Computes matching (a.language matching + b.language matching)
  star (n : Nat) : (a.star n).1.Computes matching (a.language matching)∗
  plus (n : Nat) :
    (a.plus n).1.Computes matching (a.language matching * (a.language matching)∗)
  optional (n : Nat) : (a.optional n).1.Computes matching (a.language matching + 1)
  power (count n : Nat) : (a.power count n).1.Computes matching (a.language matching ^ count)
  copy (register : Bool) (n : Nat) :
    (a.copy register n).1.Computes matching (a.language matching)

theorem regularOperations (matching : Symbol → β → Prop) (ha : a.WellFormed)
    (hb : b.WellFormed) : RegularOperations matching a b where
  concat := (ha.computes matching).concat (hb.computes matching)
  union := (ha.computes matching).union (hb.computes matching)
  star := (ha.computes matching).star
  plus := (ha.computes matching).plus
  optional := (ha.computes matching).optional
  power := (ha.computes matching).power
  copy := (ha.computes matching).copy

/-- A step that any edge allows in the direction. -/
def freely (direction : Direction) : Symbol :=
  .step ⟨direction, .any, none, none, []⟩

/-- Two final states, the initial one is one of them and is entered again, and empty transitions
lead in a circle. -/
def tangled : Automaton :=
  let a := (((epsilon 0).1.newState 1).1.2.newState 2).1.2.setFinal 1 true
  let a := (a.addTransition 0 1 (freely .outgoing)).addTransition 1 0 (freely .incoming)
  (a.addTransition 1 2 .epsilon).addTransition 2 1 .epsilon

theorem tangled_assembled : tangled.Assembled := by
  unfold tangled
  dsimp only
  have hstates := Assembled.setFinal 1 true (.newState 2 (.newState 1 (.epsilon 0)))
  refine .addTransition ?_ (.addTransition ?_ (.addTransition ?_ (.addTransition ?_ hstates)))
  all_goals decide

theorem regularOperations_tangled :
    tangled.WellFormed ∧ RegularOperations Eq tangled tangled :=
  ⟨tangled_assembled.wellFormed,
    regularOperations Eq tangled_assembled.wellFormed tangled_assembled.wellFormed⟩

/-! ## Reversal -/

/-- The words of the language from the last letter to the first, each letter seen in the mirror. -/
def mirrorImage (mirror : β → β) (l : Language β) : Language β :=
  (Language.map mirror l).reverse

section MirrorImage

variable (mirror : β → β) (l m : Language β)

theorem mirrorImage_add :
    mirrorImage mirror (l + m) = mirrorImage mirror l + mirrorImage mirror m := by
  rw [mirrorImage, map_add, Language.reverse_add]
  rfl

theorem mirrorImage_pow (count : Nat) :
    mirrorImage mirror (l ^ count) = mirrorImage mirror l ^ count := by
  rw [mirrorImage, map_pow, Language.reverse_pow]
  rfl

theorem mirrorImage_kstar : mirrorImage mirror l∗ = (mirrorImage mirror l)∗ := by
  rw [mirrorImage, Language.map_kstar, Language.reverse_kstar]
  rfl

/-- At least one word: which of them is set apart makes no difference. -/
theorem mirrorImage_mul_kstar :
    mirrorImage mirror (l * l∗) = mirrorImage mirror l * (mirrorImage mirror l)∗ := by
  rw [← Language.mul_self_kstar_comm, ← mirrorImage_kstar, mirrorImage, map_mul,
    Language.reverse_mul]
  rfl

variable {mirror}

theorem mem_mirrorImage (hmirror : Function.Involutive mirror) {bs : List β} :
    bs ∈ mirrorImage mirror l ↔ mirrored mirror bs ∈ l := by
  rw [mirrorImage, Language.mem_reverse]
  -- The mirror undoes itself, so an image is a preimage.
  constructor
  · rintro ⟨cs, hcs, heq⟩
    rw [mirrored, ← heq, List.map_map, hmirror.comp_self, List.map_id]
    exact hcs
  · intro h
    refine ⟨mirrored mirror bs, h, ?_⟩
    rw [mirrored, List.map_map, hmirror.comp_self, List.map_id]

theorem mirrorImage_mirrorImage (hmirror : Function.Involutive mirror) :
    mirrorImage mirror (mirrorImage mirror l) = l := by
  ext bs
  rw [mem_mirrorImage _ hmirror, mem_mirrorImage _ hmirror, mirrored_mirrored hmirror]

end MirrorImage

theorem language_reverse {mirror : β → β} (hmirror : Function.Involutive mirror)
    (hmatching : ∀ (symbol : Symbol) (b : β),
      matching symbol.reversed (mirror b) ↔ matching symbol b)
    (ha : a.WellFormed) (n : Nat) :
    (a.reverse n).1.language matching = mirrorImage mirror (a.language matching) := by
  ext bs
  rw [mem_language_reverse hmirror hmatching ha n, mem_mirrorImage _ hmirror]

/-! ## Incidences -/

theorem Computes.reverse {g : Graph} {l : Language Incidence}
    (ha : a.Computes (Symbol.Matches g) l) (n : Nat) :
    (a.reverse n).1.Computes (Symbol.Matches g) (mirrorImage Incidence.reversed l) where
  wellFormed := reverse_wellFormed ha.wellFormed n
  language_eq := by
    have hmatches (symbol : Symbol) (e : Incidence) :
        symbol.reversed.Matches g e.reversed ↔ symbol.Matches g e := by
      rw [Symbol.Matches, Symbol.fits_reversed]
    rw [language_reverse Incidence.reversed_reversed hmatches ha.wellFormed, ha.language_eq]

/-- How reversal goes together with sequences of incidences, with itself and with the other
operations, whatever the serials.  Each step is tested for direction, types and roles. -/
structure ReverseLaws (g : Graph) (a b : Automaton) : Prop where
  wellFormed (n : Nat) : (a.reverse n).1.WellFormed
  mem_iff (n : Nat) (es : List Incidence) :
    backwards es ∈ (a.reverse n).1.language (Symbol.Matches g) ↔
      es ∈ a.language (Symbol.Matches g)
  reverse (m n : Nat) : ((a.reverse m).1.reverse n).1.language (Symbol.Matches g) =
    a.language (Symbol.Matches g)
  power (count k l m n : Nat) :
    ((a.power count k).1.reverse l).1.language (Symbol.Matches g) =
      ((a.reverse m).1.power count n).1.language (Symbol.Matches g)
  star (k l m n : Nat) : ((a.star k).1.reverse l).1.language (Symbol.Matches g) =
    ((a.reverse m).1.star n).1.language (Symbol.Matches g)
  plus (k l m n : Nat) : ((a.plus k).1.reverse l).1.language (Symbol.Matches g) =
    ((a.reverse m).1.plus n).1.language (Symbol.Matches g)
  union (i k l m n : Nat) : ((a.union b k).1.reverse l).1.language (Symbol.Matches g) =
    ((a.reverse m).1.union (b.reverse i).1 n).1.language (Symbol.Matches g)

theorem reverseLaws (g : Graph) (ha : a.WellFormed) (hb : b.WellFormed) :
    ReverseLaws g a b := by
  -- In each law both sides compute the mirror image of the same language.
  have hca := ha.computes (Symbol.Matches g)
  have hcb := hb.computes (Symbol.Matches g)
  constructor
  case wellFormed =>
    exact reverse_wellFormed ha
  case mem_iff =>
    intro n es
    rw [(hca.reverse n).language_eq, mem_mirrorImage _ Incidence.reversed_reversed]
    exact iff_of_eq (congrArg (· ∈ a.language (Symbol.Matches g)) (backwards_backwards es))
  case reverse =>
    intro m n
    rw [((hca.reverse m).reverse n).language_eq,
      mirrorImage_mirrorImage _ Incidence.reversed_reversed]
  case power =>
    intro count k l m n
    rw [((hca.power count k).reverse l).language_eq, ((hca.reverse m).power count n).language_eq,
      mirrorImage_pow]
  case star =>
    intro k l m n
    rw [((hca.star k).reverse l).language_eq, ((hca.reverse m).star n).language_eq,
      mirrorImage_kstar]
  case plus =>
    intro k l m n
    rw [((hca.plus k).reverse l).language_eq, ((hca.reverse m).plus n).language_eq,
      mirrorImage_mul_kstar]
  case union =>
    intro i k l m n
    rw [((hca.union hcb k).reverse l).language_eq,
      ((hca.reverse m).union (hcb.reverse i) n).language_eq, mirrorImage_add]

/-- A road that leads back to its town. -/
def loopRoad : Graph :=
  ((Graph.empty.addVertex "Town" []).2.addEdge "road" 0 0 []).2

/-- The automaton goes round the road and back; its reversal starts from both final states. -/
theorem reverseLaws_tangled :
    tangled.WellFormed ∧ ReverseLaws loopRoad tangled tangled ∧
      [⟨0, true⟩, ⟨0, false⟩, ⟨0, true⟩] ∈ tangled.language (Symbol.Matches loopRoad) := by
  have htangled := tangled_assembled.wellFormed
  refine ⟨htangled, reverseLaws loopRoad htangled htangled, ?_⟩
  rw [← acceptsWord_iff htangled.toIndexed]
  decide +kernel

end Automaton
end PathQuery

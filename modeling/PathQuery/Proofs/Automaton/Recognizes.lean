import PathQuery.Proofs.Automaton.Accepting
import PathQuery.Proofs.Automaton.Language
import PathQuery.Proofs.Path.Acceptance
import PathQuery.Proofs.Pattern.Meaning

/-!
# Automata that recognize a language of incidences

* `Automaton.Recognizes`: the automaton is in good order, has neither guards nor fixed edges, and
  reads exactly the sequences of incidences in the language;
* `recognizes_single`, `Recognizes.concat`, `Recognizes.union`, `Recognizes.star` and so on: the
  automata that the operations build, with the languages that they recognize.
-/

namespace PathQuery

open Computability

/-- A symbol matches the incidences that fit it. -/
abbrev Symbol.Matches (g : Graph) (symbol : Symbol) (e : Incidence) : Prop :=
  symbol.fits g e = true

namespace Automaton

structure Recognizes (g : Graph) (a : Automaton) (l : Language Incidence) : Prop where
  wellFormed : a.WellFormed
  accepting : a.Accepting
  plain {t : Transition} : t ∈ a.transitions → t.symbol.isPlain = true
  language_eq : a.language (Symbol.Matches g) = l

variable {g : Graph} {a b : Automaton} {l m : Language Incidence}

theorem isPlain_reversed (symbol : Symbol) : symbol.reversed.isPlain = symbol.isPlain := by
  cases symbol <;> rfl

theorem Beside.plain (ha : ∀ t ∈ a.transitions, t.symbol.isPlain = true)
    (hb : ∀ t ∈ b.transitions, t.symbol.isPlain = true) {t : Transition} (h : Beside a b t) :
    t.symbol.isPlain = true := by
  rcases h with h | ⟨u, hu, rfl⟩
  · exact ha t h
  · exact hb u hu

theorem recognizes_epsilon (n : Nat) : (epsilon n).1.Recognizes g 1 where
  wellFormed := (epsilon_shape n).wellFormed
  accepting := epsilon_accepting n
  plain ht := False.elim (((epsilon_shape n).mem_iff _).1 ht)
  language_eq := language_epsilon n

theorem recognizes_single {c : EdgeConstraint} (hguard : c.guard = none) (n : Nat) :
    (single (.step c) n).1.Recognizes g {es | ∃ e, es = [e] ∧ c.matchesStructure g e = true} where
  wellFormed := (single_shape _ n).wellFormed
  accepting := single_accepting _ n
  plain ht := by
    rw [((single_shape (.step c) n).mem_iff _).1 ht]
    exact Option.isNone_iff_eq_none.2 hguard
  language_eq := by
    ext es
    rw [mem_language_single rfl n]
    rfl

namespace Recognizes

theorem copy (ha : a.Recognizes g l) (register : Bool) (n : Nat) :
    (a.copy register n).1.Recognizes g l where
  wellFormed := (copy_shape ha.wellFormed register n).wellFormed
  accepting := copy_accepting ha.wellFormed ha.accepting register n
  plain ht := ha.plain (((copy_shape ha.wellFormed register n).mem_iff _).1 ht)
  language_eq := (language_copy ha.wellFormed register n).trans ha.language_eq

theorem concat (ha : a.Recognizes g l) (hb : b.Recognizes g m) :
    (a.concat b).Recognizes g (l * m) where
  wellFormed := (concat_shape ha.wellFormed hb.wellFormed).wellFormed
  accepting := concat_accepting ha.wellFormed hb.wellFormed ha.accepting hb.accepting
  plain ht := by
    rcases ((concat_shape ha.wellFormed hb.wellFormed).mem_iff _).1 ht with ht | ⟨f, _, rfl⟩
    · exact ht.plain (fun _ => ha.plain) (fun _ => hb.plain)
    · rfl
  language_eq := by
    rw [language_concat ha.wellFormed hb.wellFormed, ha.language_eq, hb.language_eq]

theorem union (ha : a.Recognizes g l) (hb : b.Recognizes g m) (n : Nat) :
    (a.union b n).1.Recognizes g (l + m) where
  wellFormed := (union_shape ha.wellFormed hb.wellFormed n).wellFormed
  accepting := union_accepting ha.wellFormed hb.wellFormed ha.accepting hb.accepting n
  plain ht := by
    rcases ((union_shape ha.wellFormed hb.wellFormed n).mem_iff _).1 ht with ht | rfl | rfl
    · exact ht.plain (fun _ => ha.plain) (fun _ => hb.plain)
    · rfl
    · rfl
  language_eq := by
    rw [language_union ha.wellFormed hb.wellFormed, ha.language_eq, hb.language_eq]

theorem plain_iterate (ha : a.Recognizes g l) (allowEmpty : Bool) (n : Nat) {t : Transition}
    (ht : t ∈ (a.iterate allowEmpty n).1.transitions) : t.symbol.isPlain = true := by
  rcases ((iterate_shape ha.wellFormed allowEmpty n).mem_iff _).1 ht with ht | ht
  · exact ha.plain ht
  · cases ht <;> rfl

theorem star (ha : a.Recognizes g l) (n : Nat) : (a.star n).1.Recognizes g l∗ where
  wellFormed := (iterate_shape ha.wellFormed true n).wellFormed
  accepting := iterate_accepting ha.wellFormed ha.accepting true n
  plain ht := ha.plain_iterate true n ht
  language_eq := by
    rw [language_star ha.wellFormed, ha.language_eq]

theorem plus (ha : a.Recognizes g l) (n : Nat) : (a.plus n).1.Recognizes g (l * l∗) where
  wellFormed := (iterate_shape ha.wellFormed false n).wellFormed
  accepting := iterate_accepting ha.wellFormed ha.accepting false n
  plain ht := ha.plain_iterate false n ht
  language_eq := by
    rw [language_plus ha.wellFormed, ha.language_eq]

theorem optional (ha : a.Recognizes g l) (n : Nat) : (a.optional n).1.Recognizes g (l + 1) where
  wellFormed := (optional_shape ha.wellFormed n).wellFormed
  accepting := optional_accepting ha.wellFormed ha.accepting n
  plain ht := by
    rcases ((optional_shape ha.wellFormed n).mem_iff _).1 ht with ht | rfl
    · exact ha.plain ht
    · rfl
  language_eq := by
    rw [language_optional ha.wellFormed, ha.language_eq]

theorem plain_appendCopies (ha : a.Recognizes g l) (count : Nat) {out : Automaton}
    (hout : out.WellFormed) (hplain : ∀ t ∈ out.transitions, t.symbol.isPlain = true) (n : Nat) :
    ∀ t ∈ (a.appendCopies count out n).1.transitions, t.symbol.isPlain = true := by
  induction count generalizing out n with
  | zero =>
    exact hplain
  | succ count ih =>
    have hcopy := ha.copy true n
    have hshape := concat_shape hout hcopy.wellFormed
    refine ih hshape.wellFormed ?_ _
    intro t ht
    rcases (hshape.mem_iff t).1 ht with ht | ⟨f, _, rfl⟩
    · exact ht.plain hplain fun _ => hcopy.plain
    · rfl

theorem power (ha : a.Recognizes g l) (count n : Nat) :
    (a.power count n).1.Recognizes g (l ^ count) where
  wellFormed := power_wellFormed ha.wellFormed count n
  accepting := power_accepting ha.wellFormed ha.accepting count n
  plain ht := by
    cases count with
    | zero =>
      exact (recognizes_epsilon (g := g) n).plain ht
    | succ count =>
      have hcopy := ha.copy true n
      exact ha.plain_appendCopies count hcopy.wellFormed (fun _ => hcopy.plain) _ _ ht
  language_eq := by
    rw [language_power ha.wellFormed, ha.language_eq]

theorem reverse (ha : a.Recognizes g l) (n : Nat) :
    (a.reverse n).1.Recognizes g {es | backwards es ∈ l} where
  wellFormed := by
    rcases reverse_shape ha.wellFormed n with ⟨only, _, hshape⟩ | hshape
    · exact hshape.wellFormed
    · exact hshape.wellFormed
  accepting := reverse_accepting ha.wellFormed ha.accepting n
  plain ht := by
    have hflipped : ∀ {t}, (∃ u ∈ a.transitions, t = flipped u) → t.symbol.isPlain = true := by
      rintro t ⟨u, hu, rfl⟩
      exact (isPlain_reversed u.symbol).trans (ha.plain hu)
    rcases reverse_shape ha.wellFormed n with ⟨only, _, hshape⟩ | hshape
    · exact hflipped ((hshape.mem_iff _).1 ht)
    · rcases (hshape.mem_iff _).1 ht with ht | ⟨f, _, rfl⟩
      · exact hflipped ht
      · rfl
  language_eq := by
    have hmatches : ∀ (symbol : Symbol) (e : Incidence),
        symbol.reversed.Matches g e.reversed ↔ symbol.Matches g e := by
      intro symbol e
      rw [Symbol.Matches, Symbol.fits_reversed]
    ext es
    rw [mem_language_reverse Incidence.reversed_reversed hmatches ha.wellFormed n, ha.language_eq]
    rfl

end Recognizes

end Automaton
end PathQuery

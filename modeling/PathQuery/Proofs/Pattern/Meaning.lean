import Mathlib.Computability.Language
import Mathlib.Logic.Relation
import PathQuery.Automaton.Constraint
import PathQuery.Proofs.Graph.Walk
import PathQuery.Proofs.Graph.WellFormed

/-!
# What a pattern means

On a graph a pattern stands for a relation between vertices.

* `Pattern.Meaning`: the relation, with composition for sequences, union for alternatives, closures
  for iterations, and the converse for transposition;
* `Pattern.language`: the sequences of incidences that match the pattern, whether they fit together
  or not;
* `Graph.Spans`: the pairs of vertices that a language connects by walks;
* `Pattern.meaning_eq`: the meaning is what the language connects.
-/

namespace PathQuery

open Computability

/-- The identity on the vertices. -/
def Graph.Stays (g : Graph) (v w : Nat) : Prop :=
  g.containsVertex v = true ∧ v = w

namespace Pattern

/-! ## The relation -/

mutual

def Meaning (g : Graph) : Pattern → Nat → Nat → Prop
  | edge direction types roles => fun v w => ∃ e, g.this e = some v ∧ g.that e = some w ∧
      (EdgeConstraint.resolve g direction types roles none).matchesStructure g e = true
  | seq parts => Composed g parts
  | alt parts => United g parts
  | star inner => fun v w => g.Stays v w ∨ Relation.TransGen (Meaning g inner) v w
  | plus inner => Relation.TransGen (Meaning g inner)
  | optional inner => fun v w => g.Stays v w ∨ Meaning g inner v w
  | power inner n => (Relation.Comp (Meaning g inner))^[n] g.Stays
  | transpose inner => fun v w => Meaning g inner w v

def Composed (g : Graph) : List Pattern → Nat → Nat → Prop
  | [] => g.Stays
  | p :: ps => Relation.Comp (Meaning g p) (Composed g ps)

def United (g : Graph) : List Pattern → Nat → Nat → Prop
  | [] => fun _ _ => False
  | p :: ps => fun v w => Meaning g p v w ∨ United g ps v w

end

/-! ## The language -/

mutual

def language (g : Graph) : Pattern → Language Incidence
  | edge direction types roles =>
    {es | ∃ e, es = [e] ∧
      (EdgeConstraint.resolve g direction types roles none).matchesStructure g e = true}
  | seq parts => concatenated g parts
  | alt parts => joined g parts
  | star inner => (language g inner)∗
  | plus inner => language g inner * (language g inner)∗
  | optional inner => language g inner + 1
  | power inner n => language g inner ^ n
  | transpose inner => {es | backwards es ∈ language g inner}

def concatenated (g : Graph) : List Pattern → Language Incidence
  | [] => 1
  | p :: ps => language g p * concatenated g ps

def joined (g : Graph) : List Pattern → Language Incidence
  | [] => 0
  | p :: ps => language g p + joined g ps

end

theorem concatenated_append (g : Graph) (ps : List Pattern) (p : Pattern) :
    concatenated g (ps ++ [p]) = concatenated g ps * language g p := by
  induction ps with
  | nil => simp [concatenated]
  | cons q ps ih => rw [List.cons_append, concatenated, concatenated, ih, mul_assoc]

theorem joined_append (g : Graph) (ps : List Pattern) (p : Pattern) :
    joined g (ps ++ [p]) = joined g ps + language g p := by
  induction ps with
  | nil => simp [joined]
  | cons q ps ih => rw [List.cons_append, joined, joined, ih, add_assoc]

end Pattern

/-! ## Walks that match -/

namespace Graph

/-- A walk from the one vertex to the other matches. -/
def Spans (g : Graph) (l : Language Incidence) (v w : Nat) : Prop :=
  g.containsVertex v = true ∧ ∃ es ∈ l, g.Walk v es w

variable {g : Graph} {l m : Language Incidence}

theorem Walk.contains (hg : g.WellFormed) {v w : Nat} {es : List Incidence} (h : g.Walk v es w)
    (hv : g.containsVertex v = true) : g.containsVertex w = true := by
  induction h with
  | nil _ => exact hv
  | cons _ hthat _ ih => exact ih (containsVertex_iff.2 (hg.that_lt hthat))

theorem spans_one {v w : Nat} : g.Spans 1 v w ↔ g.Stays v w := by
  constructor
  · rintro ⟨hv, es, hes, hwalk⟩
    obtain rfl := (Language.mem_one es).1 hes
    exact ⟨hv, (walk_nil_iff.1 hwalk).symm⟩
  · rintro ⟨hv, rfl⟩
    exact ⟨hv, [], Language.nil_mem_one, .nil v⟩

theorem spans_add {v w : Nat} : g.Spans (l + m) v w ↔ g.Spans l v w ∨ g.Spans m v w := by
  simp only [Spans, Language.mem_add, or_and_right, exists_or, and_or_left]

theorem spans_mul (hg : g.WellFormed) :
    g.Spans (l * m) = Relation.Comp (g.Spans l) (g.Spans m) := by
  funext v w
  refine propext ⟨?_, ?_⟩
  · rintro ⟨hv, es, hes, hwalk⟩
    rcases Language.mem_mul.1 hes with ⟨fs, hfs, gs, hgs, rfl⟩
    rcases walk_append_iff.1 hwalk with ⟨u, hfirst, hsecond⟩
    exact ⟨u, ⟨hv, fs, hfs, hfirst⟩, hfirst.contains hg hv, gs, hgs, hsecond⟩
  · rintro ⟨u, ⟨hv, fs, hfs, hfirst⟩, _, gs, hgs, hsecond⟩
    exact ⟨hv, fs ++ gs, Language.append_mem_mul hfs hgs, walk_append_iff.2 ⟨u, hfirst, hsecond⟩⟩

theorem spans_pow (hg : g.WellFormed) (n : Nat) :
    g.Spans (l ^ n) = (Relation.Comp (g.Spans l))^[n] g.Stays := by
  induction n with
  | zero =>
    funext v w
    exact propext spans_one
  | succ n ih =>
    rw [pow_succ', spans_mul hg, ih, Function.iterate_succ_apply']

theorem spans_plus (hg : g.WellFormed) :
    g.Spans (l * l∗) = Relation.TransGen (g.Spans l) := by
  have hgrow : ∀ {v w : Nat} {es : List Incidence} {words : List (List Incidence)}, es ∈ l →
      (∀ fs ∈ words, fs ∈ l) → g.containsVertex v = true → g.Walk v (es ++ words.flatten) w →
      Relation.TransGen (g.Spans l) v w := by
    intro v w es words
    induction words generalizing v es with
    | nil =>
      intro hes _ hv hwalk
      rw [List.flatten_nil, List.append_nil] at hwalk
      exact .single ⟨hv, es, hes, hwalk⟩
    | cons fs words ih =>
      intro hes hwords hv hwalk
      rcases walk_append_iff.1 hwalk with ⟨u, hfirst, hrest⟩
      exact .head ⟨hv, es, hes, hfirst⟩ (ih (hwords fs List.mem_cons_self)
        (fun gs hgs => hwords gs (List.mem_cons_of_mem fs hgs)) (hfirst.contains hg hv) hrest)
  funext v w
  refine propext ⟨?_, ?_⟩
  · rintro ⟨hv, es, hes, hwalk⟩
    rcases Language.mem_mul.1 hes with ⟨fs, hfs, gs, hgs, rfl⟩
    rcases Language.mem_kstar.1 hgs with ⟨words, rfl, hwords⟩
    exact hgrow hfs hwords hv hwalk
  · intro h
    induction h with
    | single h =>
      rcases h with ⟨hv, es, hes, hwalk⟩
      refine ⟨hv, es ++ [], Language.append_mem_mul hes (Language.nil_mem_kstar l), ?_⟩
      rwa [List.append_nil]
    | tail _ h ih =>
      rcases ih with ⟨hv, es, hes, hwalk⟩
      rcases h with ⟨_, fs, hfs, hwalk'⟩
      refine ⟨hv, es ++ fs, ?_, walk_append_iff.2 ⟨_, hwalk, hwalk'⟩⟩
      have hmem := Language.append_mem_mul hes hfs
      rw [mul_assoc, Language.mul_self_kstar_comm] at hmem
      rw [← Language.one_add_self_mul_kstar_eq_kstar, mul_add, mul_one]
      exact .inr hmem

theorem spans_backwards (hg : g.WellFormed) {v w : Nat} :
    g.Spans {es | backwards es ∈ l} v w ↔ g.Spans l w v := by
  constructor
  · rintro ⟨hv, es, hes, hwalk⟩
    exact ⟨hwalk.contains hg hv, backwards es, hes, hwalk.backwards⟩
  · rintro ⟨hw, es, hes, hwalk⟩
    refine ⟨hwalk.contains hg hw, backwards es, ?_, hwalk.backwards⟩
    change backwards (backwards es) ∈ l
    rwa [backwards_backwards]

end Graph

namespace Pattern

variable {g : Graph}

mutual

theorem meaning_eq (hg : g.WellFormed) : ∀ p : Pattern, p.Meaning g = g.Spans (p.language g)
  | edge direction types roles => by
    funext v w
    rw [Meaning, language]
    refine propext ⟨?_, ?_⟩
    · rintro ⟨e, hthis, hthat, hmatch⟩
      exact ⟨Graph.containsVertex_iff.2 (hg.this_lt hthis), [e], ⟨e, rfl, hmatch⟩,
        Graph.walk_singleton_iff.2 ⟨hthis, hthat⟩⟩
    · rintro ⟨_, es, ⟨e, rfl, hmatch⟩, hwalk⟩
      rcases Graph.walk_singleton_iff.1 hwalk with ⟨hthis, hthat⟩
      exact ⟨e, hthis, hthat, hmatch⟩
  | seq parts => by
    rw [Meaning, language, composed_eq hg parts]
  | alt parts => by
    rw [Meaning, language, united_eq hg parts]
  | star inner => by
    funext v w
    rw [Meaning, language, meaning_eq hg inner, ← Language.one_add_self_mul_kstar_eq_kstar,
      ← Graph.spans_plus hg, Graph.spans_add, Graph.spans_one]
  | plus inner => by
    rw [Meaning, language, meaning_eq hg inner, Graph.spans_plus hg]
  | optional inner => by
    funext v w
    rw [Meaning, language, meaning_eq hg inner, Graph.spans_add, Graph.spans_one, or_comm]
  | power inner n => by
    rw [Meaning, language, meaning_eq hg inner, Graph.spans_pow hg]
  | transpose inner => by
    funext v w
    rw [Meaning, language, meaning_eq hg inner, Graph.spans_backwards hg]

theorem composed_eq (hg : g.WellFormed) :
    ∀ ps : List Pattern, Composed g ps = g.Spans (concatenated g ps)
  | [] => by
    funext v w
    rw [Composed, concatenated, Graph.spans_one]
  | p :: ps => by
    rw [Composed, concatenated, meaning_eq hg p, composed_eq hg ps, Graph.spans_mul hg]

theorem united_eq (hg : g.WellFormed) :
    ∀ ps : List Pattern, United g ps = g.Spans (joined g ps)
  | [] => by
    funext v w
    rw [United, joined]
    refine propext ⟨False.elim, ?_⟩
    rintro ⟨_, es, hes, _⟩
    exact Language.notMem_zero es hes
  | p :: ps => by
    funext v w
    rw [United, joined, meaning_eq hg p, united_eq hg ps, Graph.spans_add]

end

end Pattern

end PathQuery

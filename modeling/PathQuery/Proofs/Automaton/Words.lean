import PathQuery.Proofs.Automaton.Closure
import PathQuery.Proofs.Automaton.Run

/-!
# Words read with sets of states

A word is read by the lists of the states and the closures: from the closure of the initial state
every letter leads to the closures of the states behind the transitions that can read it.

* `Automaton.follow`, `Automaton.acceptsWord`: one letter, and a whole word;
* `EpsilonClosed`: a set from which empty transitions do not lead out;
* `acceptsWord_iff`: exactly the words of the language are accepted, so they can be tested.
-/

namespace PathQuery
namespace Automaton

variable {β : Type} {a : Automaton} {current : IdSet}

def follow (a : Automaton) (reads : Symbol → Bool) (current : IdSet) : IdSet :=
  .ofList <| current.toList.flatMap fun s => (a.outTransitions s).flatMap fun t =>
    if !t.symbol.isEpsilon && reads t.symbol then (a.epsilonClosure t.target).toList else []

/-- The states after a word. -/
def followWord (a : Automaton) (reads : Symbol → β → Bool) (current : IdSet) (word : List β) :
    IdSet :=
  word.foldl (fun current b => a.follow (reads · b) current) current

def acceptsWord (a : Automaton) (reads : Symbol → β → Bool) (word : List β) : Bool :=
  (a.followWord reads (a.epsilonClosure a.initial) word).toList.any a.isFinal

def EpsilonClosed (a : Automaton) (current : IdSet) : Prop :=
  ∀ {s t : StateId}, s ∈ current → a.Bridged s t → t ∈ current

theorem mem_follow (ha : a.Indexed) {reads : Symbol → Bool} {u : StateId} :
    u ∈ a.follow reads current ↔ ∃ s ∈ current, ∃ t symbol, ⟨s, t, symbol⟩ ∈ a.transitions ∧
      symbol.isEpsilon = false ∧ reads symbol = true ∧ Relation.ReflTransGen a.Bridged t u := by
  simp only [follow, IdSet.mem_ofList, List.mem_flatMap, ha.mem_outTransitions]
  constructor
  · rintro ⟨s, hs, ⟨_, t, symbol⟩, ⟨ht, rfl⟩, hu⟩
    split at hu
    · rename_i hreads
      rw [Bool.and_eq_true, Bool.not_eq_true'] at hreads
      exact ⟨_, hs, t, symbol, ht, hreads.1, hreads.2,
        (mem_epsilonClosure ha (ha.target_lt ht)).1 hu⟩
    · exact absurd hu List.not_mem_nil
  · rintro ⟨s, hs, t, symbol, ht, hsymbol, hreads, hu⟩
    refine ⟨s, hs, ⟨s, t, symbol⟩, ⟨ht, rfl⟩, ?_⟩
    rw [if_pos (by simp [hsymbol, hreads])]
    exact (mem_epsilonClosure ha (ha.target_lt ht)).2 hu

theorem epsilonClosed_follow (ha : a.Indexed) (reads : Symbol → Bool) (current : IdSet) :
    a.EpsilonClosed (a.follow reads current) := by
  intro u v hu huv
  rcases (mem_follow ha).1 hu with ⟨s, hs, t, symbol, ht, hsymbol, hreads, htu⟩
  exact (mem_follow ha).2 ⟨s, hs, t, symbol, ht, hsymbol, hreads, htu.tail huv⟩

theorem epsilonClosed_initial (ha : a.Indexed) :
    a.EpsilonClosed (a.epsilonClosure a.initial) := by
  intro s t hs hst
  rw [mem_epsilonClosure ha ha.initial_lt] at hs ⊢
  exact hs.tail hst

theorem Run.of_bridged {accepts : Transition → β → Prop} {s t u : StateId} {bs : List β}
    (hst : Relation.ReflTransGen a.Bridged s t) (h : Run a accepts t bs u) :
    Run a accepts s bs u := by
  induction hst using Relation.ReflTransGen.head_induction_on with
  | refl => exact h
  | head hfirst _ ih => exact .epsilon hfirst ih

/-- The first letter of a run takes the set along. -/
theorem Run.exists_follow (ha : a.Indexed) (hclosed : a.EpsilonClosed current)
    {reads : Symbol → β → Bool} {s u : StateId} {b : β} {bs : List β} (hs : s ∈ current)
    (h : Run a (bySymbol (reads · · = true)) s (b :: bs) u) :
    ∃ t ∈ a.follow (reads · b) current, Run a (bySymbol (reads · · = true)) t bs u := by
  generalize hword : b :: bs = word at h
  -- Empty transitions before the letter stay in the set.
  induction h with
  | nil _ => cases hword
  | epsilon ht _ ih => exact ih (hclosed hs ht) hword
  | step ht hsymbol hreads hrun =>
    cases hword
    exact ⟨_, (mem_follow ha).2 ⟨_, hs, _, _, ht, hsymbol, hreads, .refl⟩, hrun⟩

theorem mem_followWord (ha : a.Indexed) (hclosed : a.EpsilonClosed current)
    {reads : Symbol → β → Bool} {word : List β} {u : StateId} :
    u ∈ a.followWord reads current word ↔
      ∃ s ∈ current, Run a (bySymbol (reads · · = true)) s word u := by
  induction word generalizing current with
  | nil =>
    constructor
    · exact fun hu => ⟨u, hu, .nil u⟩
    · rintro ⟨s, hs, hrun⟩
      generalize hword : ([] : List β) = word at hrun
      induction hrun with
      | nil _ => exact hs
      | epsilon ht _ ih => exact ih (hclosed hs ht) hword
      | step _ _ _ _ => cases hword
  | cons b bs ih =>
    -- The set after a letter is closed again, so the rest is read from there.
    refine (ih (epsilonClosed_follow ha (reads · b) current)).trans ⟨?_, ?_⟩
    · rintro ⟨v, hv, hrun⟩
      rcases (mem_follow ha).1 hv with ⟨s, hs, t, symbol, ht, hsymbol, hreads, htv⟩
      exact ⟨s, hs, .step ht hsymbol hreads (hrun.of_bridged htv)⟩
    · rintro ⟨s, hs, hrun⟩
      exact hrun.exists_follow ha hclosed hs

theorem acceptsWord_iff (ha : a.Indexed) {reads : Symbol → β → Bool} {word : List β} :
    a.acceptsWord reads word = true ↔ word ∈ a.language (reads · · = true) := by
  rw [acceptsWord, List.any_eq_true, mem_language]
  constructor
  · rintro ⟨f, hf, hfinal⟩
    rcases (mem_followWord ha (epsilonClosed_initial ha)).1 hf with ⟨s, hs, hrun⟩
    exact ⟨f, hfinal, hrun.of_bridged ((mem_epsilonClosure ha ha.initial_lt).1 hs)⟩
  · rintro ⟨f, hfinal, hrun⟩
    refine ⟨f, (mem_followWord ha (epsilonClosed_initial ha)).2 ⟨a.initial, ?_, hrun⟩, hfinal⟩
    exact (mem_epsilonClosure ha ha.initial_lt).2 .refl

end Automaton
end PathQuery

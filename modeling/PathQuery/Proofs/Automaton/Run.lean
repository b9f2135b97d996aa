import Mathlib.Computability.Language
import PathQuery.Proofs.Automaton.Shape

/-!
# Runs of an automaton

A run follows transitions.  An empty transition reads nothing, any other one reads one letter that
it accepts; what the letters are is left open.

* `Automaton.Run accepts s bs u`: the letters `bs` can be read on the way from `s` to `u`;
* `Automaton.language`: the words that are read on the way from the initial to a final state, when
  acceptance is a matter of the symbol;
* `Run.map`, `Run.part_iff`, `Run.left_iff`: runs of an automaton that is a part of another one.
-/

namespace PathQuery

theorem Symbol.eq_epsilon {symbol : Symbol} (h : symbol.isEpsilon = true) : symbol = .epsilon := by
  cases symbol with
  | epsilon => rfl
  | step _ => exact absurd h Bool.false_ne_true
  | stepAlong _ _ => exact absurd h Bool.false_ne_true

namespace Automaton

variable {β : Type}

inductive Run (a : Automaton) (accepts : Transition → β → Prop) :
    StateId → List β → StateId → Prop where
  | nil (s : StateId) : Run a accepts s [] s
  | epsilon {s t u : StateId} {bs : List β} :
      ⟨s, t, .epsilon⟩ ∈ a.transitions → Run a accepts t bs u → Run a accepts s bs u
  | step {s t u : StateId} {symbol : Symbol} {b : β} {bs : List β} :
      ⟨s, t, symbol⟩ ∈ a.transitions → symbol.isEpsilon = false → accepts ⟨s, t, symbol⟩ b →
      Run a accepts t bs u → Run a accepts s (b :: bs) u

/-- What one transition can read. -/
inductive Reads (accepts : β → Prop) : Symbol → List β → Prop where
  | nothing : Reads accepts .epsilon []
  | letter {symbol : Symbol} {b : β} :
      symbol.isEpsilon = false → accepts b → Reads accepts symbol [b]

theorem reads_epsilon_iff {accepts : β → Prop} {bs : List β} :
    Reads accepts .epsilon bs ↔ bs = [] := by
  constructor
  · intro h
    cases h with
    | nothing => rfl
    | letter h _ => exact absurd h Bool.noConfusion
  · rintro rfl
    exact .nothing

theorem reads_iff {accepts : β → Prop} {symbol : Symbol} {bs : List β}
    (h : symbol.isEpsilon = false) : Reads accepts symbol bs ↔ ∃ b, bs = [b] ∧ accepts b := by
  constructor
  · intro hreads
    cases hreads with
    | nothing => exact absurd h Bool.noConfusion
    | letter _ hb => exact ⟨_, rfl, hb⟩
  · rintro ⟨b, rfl, hb⟩
    exact .letter h hb

namespace Run

variable {a c : Automaton} {accepts : Transition → β → Prop}

theorem move {s t u : StateId} {symbol : Symbol} {bs cs : List β}
    (ht : ⟨s, t, symbol⟩ ∈ a.transitions) (hreads : Reads (accepts ⟨s, t, symbol⟩) symbol bs)
    (hrun : Run a accepts t cs u) : Run a accepts s (bs ++ cs) u := by
  cases hreads with
  | nothing => exact .epsilon ht hrun
  | letter hsymbol hb => exact .step ht hsymbol hb hrun

/-- Induction with one case for both kinds of transitions. -/
@[elab_as_elim]
theorem moveInduction {u : StateId}
    {motive : (s : StateId) → (bs : List β) → Run a accepts s bs u → Prop}
    (nil : motive u [] (.nil u))
    (move : ∀ {s t : StateId} {symbol : Symbol} {bs cs : List β}
      (ht : ⟨s, t, symbol⟩ ∈ a.transitions) (hreads : Reads (accepts ⟨s, t, symbol⟩) symbol bs)
      (hrun : Run a accepts t cs u), motive t cs hrun → motive s (bs ++ cs) (.move ht hreads hrun))
    {s : StateId} {bs : List β} (h : Run a accepts s bs u) : motive s bs h := by
  induction h with
  | nil _ => exact nil
  | epsilon ht hrun ih => exact move ht .nothing hrun (ih nil move)
  | step ht hsymbol hb hrun ih => exact move ht (.letter hsymbol hb) hrun (ih nil move)

theorem append {s t u : StateId} {bs cs : List β} (h : Run a accepts s bs t)
    (h' : Run a accepts t cs u) : Run a accepts s (bs ++ cs) u := by
  induction h with
  | nil _ => exact h'
  | epsilon ht _ ih => exact .epsilon ht (ih h')
  | step ht hsymbol hb _ ih => exact .step ht hsymbol hb (ih h')

theorem snoc {s t u : StateId} {symbol : Symbol} {bs cs : List β} (hrun : Run a accepts s bs t)
    (ht : ⟨t, u, symbol⟩ ∈ a.transitions)
    (hreads : Reads (accepts ⟨t, u, symbol⟩) symbol cs) : Run a accepts s (bs ++ cs) u := by
  have hlast := move ht hreads (.nil u)
  rw [List.append_nil] at hlast
  exact hrun.append hlast

theorem state_lt (ha : a.WellFormed) {s u : StateId} {bs : List β} (h : Run a accepts s bs u)
    (hs : s < a.stateCount) : u < a.stateCount := by
  induction h with
  | nil _ => exact hs
  | epsilon ht _ ih => exact ih (ha.target_lt ht)
  | step ht _ _ _ ih => exact ih (ha.target_lt ht)

end Run

/-! ## Parts -/

section Parts

variable {a c : Automaton} {matching : Symbol → β → Prop}

/-- Acceptance by the symbol alone. -/
abbrev bySymbol (matching : Symbol → β → Prop) (t : Transition) : β → Prop :=
  matching t.symbol

theorem Run.map {f : StateId → StateId}
    (hf : ∀ {s t : StateId} {symbol : Symbol}, ⟨s, t, symbol⟩ ∈ a.transitions →
      ⟨f s, f t, symbol⟩ ∈ c.transitions)
    {s u : StateId} {bs : List β} (h : Run a (bySymbol matching) s bs u) :
    Run c (bySymbol matching) (f s) bs (f u) := by
  induction h with
  | nil s => exact .nil (f s)
  | epsilon ht _ ih => exact .epsilon (hf ht) ih
  | step ht hsymbol hb _ ih => exact .step (hf ht) hsymbol hb ih

/-- A part that no transition leaves has the runs of the automaton that was put there. -/
theorem Run.part_iff (ha : a.WellFormed) {f : StateId → StateId}
    (hin : ∀ {s t : StateId} {symbol : Symbol}, ⟨s, t, symbol⟩ ∈ a.transitions →
      ⟨f s, f t, symbol⟩ ∈ c.transitions)
    (hout : ∀ {s t : StateId} {symbol : Symbol}, s < a.stateCount →
      ⟨f s, t, symbol⟩ ∈ c.transitions → ∃ t', t = f t' ∧ ⟨s, t', symbol⟩ ∈ a.transitions)
    {s u : StateId} {bs : List β} (hs : s < a.stateCount) :
    Run c (bySymbol matching) (f s) bs u ↔
      ∃ u', u = f u' ∧ Run a (bySymbol matching) s bs u' := by
  constructor
  · intro h
    generalize hx : f s = x at h
    induction h using Run.moveInduction generalizing s with
    | nil => exact ⟨s, hx.symm, .nil s⟩
    | move ht hreads _ ih =>
      subst hx
      rcases hout hs ht with ⟨t', rfl, ht'⟩
      rcases ih (ha.target_lt ht') rfl with ⟨u', hu, hrun⟩
      exact ⟨u', hu, .move ht' hreads hrun⟩
  · rintro ⟨u', rfl, h⟩
    exact h.map hin

/-- The same for a part that keeps its numbers. -/
theorem Run.left_iff (ha : a.WellFormed)
    (hin : ∀ {t : Transition}, t ∈ a.transitions → t ∈ c.transitions)
    (hout : ∀ {t : Transition}, t.source < a.stateCount → t ∈ c.transitions → t ∈ a.transitions)
    {s u : StateId} {bs : List β} (hs : s < a.stateCount) :
    Run c (bySymbol matching) s bs u ↔ Run a (bySymbol matching) s bs u := by
  have h : Run c (bySymbol matching) (id s) bs u ↔
      ∃ u', u = id u' ∧ Run a (bySymbol matching) s bs u' :=
    Run.part_iff ha hin (fun hlt ht => ⟨_, rfl, hout hlt ht⟩) hs
  constructor
  · intro hrun
    rcases h.1 hrun with ⟨u', rfl, hrun'⟩
    exact hrun'
  · intro hrun
    exact h.2 ⟨u, rfl, hrun⟩

/-! ## Languages -/

def language (a : Automaton) (matching : Symbol → β → Prop) : Language β :=
  {bs | ∃ f, a.isFinal f = true ∧ Run a (bySymbol matching) a.initial bs f}

theorem mem_language {bs : List β} : bs ∈ a.language matching ↔
    ∃ f, a.isFinal f = true ∧ Run a (bySymbol matching) a.initial bs f :=
  Iff.rfl

end Parts

end Automaton
end PathQuery

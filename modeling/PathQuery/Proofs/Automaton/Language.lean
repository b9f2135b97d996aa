import PathQuery.Proofs.Automaton.Run

/-!
# The operations compute the regular operations

The letters and the relation between symbols and letters are arbitrary, so this covers words of
symbols as well as sequences of edges.

* `language_concat`, `language_union`, `language_iterate`, `language_optional`, `language_power`:
  the operations on automata are the operations on languages;
* `language_epsilon`, `language_single`, `language_copy`: the automata to start from;
* `mem_language_reverse`: what the reversed automaton reads.
-/

namespace PathQuery
namespace Automaton

open Computability

variable {β : Type} {matching : Symbol → β → Prop} {a b c : Automaton}

/-! ## Two automata side by side -/

theorem Beside.right {s t : StateId} {symbol : Symbol} (h : ⟨s, t, symbol⟩ ∈ b.transitions) :
    Beside a b ⟨s + a.stateCount, t + a.stateCount, symbol⟩ :=
  .inr ⟨_, h, rfl⟩

/-- A link from a state of the first automaton belongs to it. -/
theorem Beside.of_lt {t : Transition} (h : Beside a b t) (ht : t.source < a.stateCount) :
    t ∈ a.transitions := by
  rcases h with h | ⟨u, _, rfl⟩
  · exact h
  · simp only [shiftTransition] at ht
    lia

/-- A link from a state of the second automaton belongs to it. -/
theorem Beside.of_shifted (ha : a.WellFormed) {s t : StateId} {symbol : Symbol}
    (h : Beside a b ⟨s + a.stateCount, t, symbol⟩) :
    ∃ t', t = t' + a.stateCount ∧ ⟨s, t', symbol⟩ ∈ b.transitions := by
  rcases h with h | ⟨⟨s', t', symbol'⟩, hmem, hu⟩
  · have := ha.source_lt h
    lia
  · simp only [shiftTransition, Transition.mk.injEq] at hu
    rcases hu with ⟨hs, ht, rfl⟩
    obtain rfl : s' = s := Nat.add_right_cancel hs
    exact ⟨t', ht.symm, hmem⟩

theorem Beside.source_lt (ha : a.WellFormed) (hb : b.WellFormed) {t : Transition}
    (h : Beside a b t) : t.source < a.stateCount + b.stateCount := by
  rcases h with h | ⟨u, hmem, rfl⟩
  · have := ha.source_lt h
    lia
  · have := hb.source_lt hmem
    simp only [shiftTransition]
    lia

/-! ## Concatenation -/

section Concat

variable (ha : a.WellFormed) (hb : b.WellFormed)
include ha hb

theorem mem_transitions_concat {t : Transition} : t ∈ (a.concat b).transitions ↔
    Beside a b t ∨ ∃ f, a.isFinal f = true ∧ t = bridge f (b.initial + a.stateCount) :=
  (concat_shape ha hb).mem_iff t

theorem run_concat_right {s u : StateId} {bs : List β} (hs : s < b.stateCount) :
    Run (a.concat b) (bySymbol matching) (s + a.stateCount) bs u ↔
      ∃ u', u = u' + a.stateCount ∧ Run b (bySymbol matching) s bs u' := by
  refine Run.part_iff (f := (· + a.stateCount)) hb ?_ ?_ hs
  · intro s t symbol ht
    exact (mem_transitions_concat ha hb).2 (.inl (.right ht))
  · intro s t symbol _ ht
    rcases (mem_transitions_concat ha hb).1 ht with ht | ⟨f, hf, heq⟩
    · exact ht.of_shifted ha
    · have := isFinal_lt hf
      simp only [Transition.mk.injEq] at heq
      lia

/-- A run from the first part to the second one crosses once, from a final state. -/
theorem run_concat_left {s u : StateId} {bs : List β}
    (h : Run (a.concat b) (bySymbol matching) s bs u) (hs : s < a.stateCount)
    (hu : a.stateCount ≤ u) :
    ∃ cs ds f, bs = cs ++ ds ∧ a.isFinal f = true ∧ Run a (bySymbol matching) s cs f ∧
      Run (a.concat b) (bySymbol matching) (b.initial + a.stateCount) ds u := by
  induction h using Run.moveInduction with
  | nil =>
    exact absurd hs (Nat.not_lt.2 hu)
  | move ht hreads hrun ih =>
    rename_i s t symbol bs cs
    rcases (mem_transitions_concat ha hb).1 ht with ht | ⟨f, hf, heq⟩
    · have ht := ht.of_lt hs
      rcases ih (ha.target_lt ht) with ⟨ds, es, f, rfl, hf, hleft, hright⟩
      exact ⟨bs ++ ds, es, f, (List.append_assoc _ _ _).symm, hf, hleft.move ht hreads, hright⟩
    · simp only [Transition.mk.injEq] at heq
      rcases heq with ⟨rfl, rfl, rfl⟩
      rw [reads_epsilon_iff.1 hreads]
      exact ⟨[], cs, s, rfl, hf, .nil s, hrun⟩

theorem language_concat :
    (a.concat b).language matching = a.language matching * b.language matching := by
  have hshape := concat_shape ha hb
  ext bs
  rw [Language.mem_mul]
  constructor
  · rintro ⟨u, hu, hrun⟩
    rw [hshape.initial_eq] at hrun
    rcases (hshape.final_iff u).1 hu with ⟨hle, hfinal⟩
    rcases run_concat_left ha hb hrun ha.initial_lt hle with ⟨cs, ds, f, rfl, hf, hleft, hright⟩
    rcases (run_concat_right ha hb hb.initial_lt).1 hright with ⟨u', rfl, hsecond⟩
    rw [Nat.add_sub_cancel] at hfinal
    exact ⟨cs, ⟨f, hf, hleft⟩, ds, ⟨u', hfinal, hsecond⟩, rfl⟩
  · rintro ⟨cs, ⟨f, hf, hleft⟩, ds, ⟨u, hu, hright⟩, rfl⟩
    refine ⟨u + a.stateCount, ?_, ?_⟩
    · rw [hshape.final_iff]
      exact ⟨Nat.le_add_left _ _, by rwa [Nat.add_sub_cancel]⟩
    · rw [hshape.initial_eq]
      have hcross : bridge f (b.initial + a.stateCount) ∈ (a.concat b).transitions :=
        (mem_transitions_concat ha hb).2 (.inr ⟨f, hf, rfl⟩)
      refine Run.append (t := f) ?_ (.epsilon hcross ?_)
      · refine Run.map (f := id) ?_ hleft
        intro s t symbol ht
        exact (mem_transitions_concat ha hb).2 (.inl (.inl ht))
      · exact (run_concat_right ha hb hb.initial_lt).2 ⟨u, rfl, hright⟩

end Concat

/-! ## A fresh initial state -/

/-- Leaves a state that is linked by empty transitions only. -/
theorem Run.of_bridges {s u : StateId} {bs : List β} {entries : StateId → Prop}
    (hs : ∀ {t : StateId} {symbol : Symbol}, ⟨s, t, symbol⟩ ∈ c.transitions →
      symbol = .epsilon ∧ entries t)
    (h : Run c (bySymbol matching) s bs u) :
    (u = s ∧ bs = []) ∨ ∃ t, entries t ∧ Run c (bySymbol matching) t bs u := by
  cases h with
  | nil _ =>
    exact .inl ⟨rfl, rfl⟩
  | epsilon ht hrun =>
    exact .inr ⟨_, (hs ht).2, hrun⟩
  | step ht hsymbol _ _ =>
    rw [(hs ht).1] at hsymbol
    exact absurd hsymbol Bool.noConfusion

section Union

variable (ha : a.WellFormed) (hb : b.WellFormed) (n : Nat)
include ha hb

theorem mem_transitions_union {t : Transition} : t ∈ (a.union b n).1.transitions ↔
    Beside a b t ∨ t = bridge (a.stateCount + b.stateCount) a.initial ∨
      t = bridge (a.stateCount + b.stateCount) (b.initial + a.stateCount) :=
  (union_shape ha hb n).mem_iff t

/-- Only the fresh state has other links than those of the two automata. -/
theorem mem_transitions_union_of_lt {t : Transition} (ht : t ∈ (a.union b n).1.transitions)
    (hlt : t.source < a.stateCount + b.stateCount) : Beside a b t := by
  rcases (mem_transitions_union ha hb n).1 ht with ht | rfl | rfl
  · exact ht
  · exact absurd hlt (Nat.lt_irrefl _)
  · exact absurd hlt (Nat.lt_irrefl _)

theorem run_union_left {s u : StateId} {bs : List β} (hs : s < a.stateCount) :
    Run (a.union b n).1 (bySymbol matching) s bs u ↔ Run a (bySymbol matching) s bs u := by
  refine Run.left_iff ha ?_ ?_ hs
  · intro t ht
    exact (mem_transitions_union ha hb n).2 (.inl (.inl ht))
  · intro t hlt ht
    exact (mem_transitions_union_of_lt ha hb n ht (Nat.lt_add_right _ hlt)).of_lt hlt

theorem run_union_right {s u : StateId} {bs : List β} (hs : s < b.stateCount) :
    Run (a.union b n).1 (bySymbol matching) (s + a.stateCount) bs u ↔
      ∃ u', u = u' + a.stateCount ∧ Run b (bySymbol matching) s bs u' := by
  refine Run.part_iff (f := (· + a.stateCount)) hb ?_ ?_ hs
  · intro s t symbol ht
    exact (mem_transitions_union ha hb n).2 (.inl (.right ht))
  · intro s t symbol hlt ht
    refine (mem_transitions_union_of_lt ha hb n ht ?_).of_shifted ha
    have : s < b.stateCount := hlt
    lia

theorem language_union :
    (a.union b n).1.language matching = a.language matching + b.language matching := by
  have hshape := union_shape ha hb n
  have hai := ha.initial_lt
  have hbi := hb.initial_lt
  ext bs
  rw [Language.mem_add]
  constructor
  · rintro ⟨u, hu, hrun⟩
    rw [hshape.initial_eq] at hrun
    rw [hshape.final_iff] at hu
    have hentries : ∀ {t : StateId} {symbol : Symbol},
        ⟨a.stateCount + b.stateCount, t, symbol⟩ ∈ (a.union b n).1.transitions →
        symbol = .epsilon ∧ (t = a.initial ∨ t = b.initial + a.stateCount) := by
      intro t symbol ht
      rcases (mem_transitions_union ha hb n).1 ht with ht | heq | heq
      · exact absurd (ht.source_lt ha hb) (Nat.lt_irrefl _)
      · simp only [Transition.mk.injEq] at heq
        exact ⟨heq.2.2, .inl heq.2.1⟩
      · simp only [Transition.mk.injEq] at heq
        exact ⟨heq.2.2, .inr heq.2.1⟩
    rcases hrun.of_bridges hentries with ⟨rfl, _⟩ | ⟨t, rfl | rfl, hrun⟩
    · -- The fresh state is not final.
      have hlt : ¬ a.stateCount + b.stateCount < a.stateCount := by
        lia
      rw [if_neg hlt] at hu
      have := isFinal_lt hu
      lia
    · have hrun := (run_union_left ha hb n hai).1 hrun
      rw [if_pos (hrun.state_lt ha hai)] at hu
      exact .inl ⟨u, hu, hrun⟩
    · rcases (run_union_right ha hb n hbi).1 hrun with ⟨u', rfl, hright⟩
      rw [if_neg (Nat.not_lt.2 (Nat.le_add_left _ _)), Nat.add_sub_cancel] at hu
      exact .inr ⟨u', hu, hright⟩
  · rintro (⟨u, hu, hrun⟩ | ⟨u, hu, hrun⟩)
    · refine ⟨u, ?_, ?_⟩
      · rw [hshape.final_iff, if_pos (isFinal_lt hu)]
        exact hu
      · rw [hshape.initial_eq]
        exact .epsilon ((mem_transitions_union ha hb n).2 (.inr (.inl rfl)))
          ((run_union_left ha hb n hai).2 hrun)
    · refine ⟨u + a.stateCount, ?_, ?_⟩
      · rw [hshape.final_iff, if_neg (Nat.not_lt.2 (Nat.le_add_left _ _)), Nat.add_sub_cancel]
        exact hu
      · rw [hshape.initial_eq]
        exact .epsilon ((mem_transitions_union ha hb n).2 (.inr (.inr rfl)))
          ((run_union_right ha hb n hbi).2 ⟨u, rfl, hrun⟩)

end Union

section Optional

theorem language_optional (ha : a.WellFormed) (n : Nat) :
    (a.optional n).1.language matching = a.language matching + 1 := by
  have hshape := optional_shape ha n
  have hi := ha.initial_lt
  have hleft : ∀ {s u : StateId} {bs : List β}, s < a.stateCount →
      (Run (a.optional n).1 (bySymbol matching) s bs u ↔ Run a (bySymbol matching) s bs u) := by
    refine Run.left_iff ha ?_ ?_
    · intro t ht
      exact (hshape.mem_iff t).2 (.inl ht)
    · intro t hlt ht
      rcases (hshape.mem_iff t).1 ht with ht | rfl
      · exact ht
      · exact absurd hlt (Nat.lt_irrefl _)
  ext bs
  rw [Language.mem_add, Language.mem_one]
  constructor
  · rintro ⟨u, hu, hrun⟩
    rw [hshape.initial_eq] at hrun
    rw [hshape.final_iff] at hu
    have hentries : ∀ {t : StateId} {symbol : Symbol},
        ⟨a.stateCount, t, symbol⟩ ∈ (a.optional n).1.transitions →
        symbol = .epsilon ∧ t = a.initial := by
      intro t symbol ht
      rcases (hshape.mem_iff _).1 ht with ht | heq
      · exact absurd (ha.source_lt ht) (Nat.lt_irrefl _)
      · simp only [Transition.mk.injEq] at heq
        exact ⟨heq.2.2, heq.2.1⟩
    rcases hrun.of_bridges hentries with ⟨_, rfl⟩ | ⟨t, rfl, hrun⟩
    · exact .inr rfl
    · have hrun := (hleft hi).1 hrun
      have hlt := hrun.state_lt ha hi
      rcases hu with rfl | hu
      · exact absurd hlt (Nat.lt_irrefl _)
      · exact .inl ⟨u, hu, hrun⟩
  · rintro (⟨u, hu, hrun⟩ | rfl)
    · refine ⟨u, (hshape.final_iff u).2 (.inr hu), ?_⟩
      rw [hshape.initial_eq]
      exact .epsilon ((hshape.mem_iff _).2 (.inr rfl)) ((hleft hi).2 hrun)
    · refine ⟨a.stateCount, (hshape.final_iff _).2 (.inl rfl), ?_⟩
      rw [hshape.initial_eq]
      exact .nil _

end Optional

/-! ## Iteration -/

/-- A run cannot go on from a state that nothing leaves. -/
theorem Run.eq_nil {accepts : Transition → β → Prop} {s u : StateId} {bs : List β}
    (hs : ∀ t ∈ c.transitions, t.source ≠ s) (h : Run c accepts s bs u) : bs = [] := by
  cases h with
  | nil _ => rfl
  | epsilon ht _ => exact absurd rfl (hs _ ht)
  | step ht _ _ _ => exact absurd rfl (hs _ ht)

section Iteration

variable (ha : a.WellFormed) (allowEmpty : Bool) (n : Nat)
include ha

theorem mem_transitions_iterate {t : Transition} : t ∈ (a.iterate allowEmpty n).1.transitions ↔
    t ∈ a.transitions ∨ IterationLink a allowEmpty a.stateCount (a.stateCount + 1) t :=
  (iterate_shape ha allowEmpty n).mem_iff t

theorem iterate_last {t : Transition} (ht : t ∈ (a.iterate allowEmpty n).1.transitions) :
    t.source ≠ a.stateCount + 1 := by
  have hi := ha.initial_lt
  rcases (mem_transitions_iterate ha allowEmpty n).1 ht with ht | ht
  · have := ha.source_lt ht
    lia
  · cases ht with
    | enter => exact Nat.ne_of_lt (Nat.lt_succ_self _)
    | leave hf => exact Nat.ne_of_lt (Nat.lt_succ_of_lt (isFinal_lt hf))
    | again hf _ => exact Nat.ne_of_lt (Nat.lt_succ_of_lt (isFinal_lt hf))
    | skip _ => exact Nat.ne_of_lt (Nat.lt_succ_self _)

/-- A run to the fresh final state is cut where it first leaves the automaton that is iterated. -/
theorem run_iterate_last {s : StateId} {bs : List β}
    (h : Run (a.iterate allowEmpty n).1 (bySymbol matching) s bs (a.stateCount + 1))
    (hs : s < a.stateCount) :
    ∃ cs ds f, bs = cs ++ ds ∧ a.isFinal f = true ∧ Run a (bySymbol matching) s cs f ∧
      ds ∈ (a.language matching)∗ := by
  induction h using Run.moveInduction with
  | nil =>
    exact absurd hs (Nat.not_lt.2 (Nat.le_succ _))
  | move ht hreads hrun ih =>
    rename_i s t symbol bs cs
    rcases (mem_transitions_iterate ha allowEmpty n).1 ht with ht | ht
    · rcases ih (ha.target_lt ht) with ⟨ds, es, f, rfl, hf, hleft, hright⟩
      exact ⟨bs ++ ds, es, f, (List.append_assoc _ _ _).symm, hf, hleft.move ht hreads, hright⟩
    · cases ht with
      | enter =>
        exact absurd hs (Nat.lt_irrefl _)
      | leave hf =>
        rw [reads_epsilon_iff.1 hreads, hrun.eq_nil fun t ht => iterate_last ha allowEmpty n ht]
        exact ⟨[], [], s, rfl, hf, .nil s, Language.nil_mem_kstar _⟩
      | again hf _ =>
        rcases ih ha.initial_lt with ⟨ds, es, f', rfl, hf', hleft, hright⟩
        rw [reads_epsilon_iff.1 hreads]
        refine ⟨[], ds ++ es, s, rfl, hf, .nil s, ?_⟩
        rw [← Language.one_add_self_mul_kstar_eq_kstar]
        exact .inr (Language.append_mem_mul ⟨f', hf', hleft⟩ hright)
      | skip _ =>
        exact absurd hs (Nat.lt_irrefl _)

theorem run_iterate_of_flatten {words : List (List β)} {bs : List β}
    (hbs : bs ∈ a.language matching) (hwords : ∀ cs ∈ words, cs ∈ a.language matching) :
    Run (a.iterate allowEmpty n).1 (bySymbol matching) a.initial (bs ++ words.flatten)
      (a.stateCount + 1) := by
  have hlink : ∀ {t : Transition}, IterationLink a allowEmpty a.stateCount (a.stateCount + 1) t →
      t ∈ (a.iterate allowEmpty n).1.transitions := by
    intro t ht
    exact (mem_transitions_iterate ha allowEmpty n).2 (.inr ht)
  have hpart : ∀ {s u : StateId} {cs : List β}, Run a (bySymbol matching) s cs u →
      Run (a.iterate allowEmpty n).1 (bySymbol matching) s cs u := by
    intro s u cs hrun
    refine Run.map (f := id) ?_ hrun
    intro s t symbol ht
    exact (mem_transitions_iterate ha allowEmpty n).2 (.inl ht)
  induction words generalizing bs with
  | nil =>
    rcases hbs with ⟨f, hf, hrun⟩
    exact (hpart hrun).append (.epsilon (hlink (.leave hf)) (.nil _))
  | cons cs words ih =>
    rcases hbs with ⟨f, hf, hrun⟩
    have hrest := ih (hwords cs List.mem_cons_self)
      fun ds hds => hwords ds (List.mem_cons_of_mem cs hds)
    refine (hpart hrun).append ?_
    by_cases hfi : f = a.initial
    · rw [hfi]
      exact hrest
    · exact .epsilon (hlink (.again hf hfi)) hrest

theorem mem_language_iterate {bs : List β} :
    bs ∈ (a.iterate allowEmpty n).1.language matching ↔
      bs ∈ a.language matching * (a.language matching)∗ ∨ (allowEmpty = true ∧ bs = []) := by
  have hshape := iterate_shape ha allowEmpty n
  constructor
  · rintro ⟨u, hu, hrun⟩
    rw [hshape.initial_eq] at hrun
    obtain rfl := (hshape.final_iff u).1 hu
    have hentries : ∀ {t : StateId} {symbol : Symbol},
        ⟨a.stateCount, t, symbol⟩ ∈ (a.iterate allowEmpty n).1.transitions →
        symbol = .epsilon ∧ (t = a.initial ∨ (allowEmpty = true ∧ t = a.stateCount + 1)) := by
      intro t symbol ht
      rcases (mem_transitions_iterate ha allowEmpty n).1 ht with ht | ht
      · exact absurd (ha.source_lt ht) (Nat.lt_irrefl _)
      · cases ht with
        | enter => exact ⟨rfl, .inl rfl⟩
        | leave hf => exact absurd (isFinal_lt hf) (Nat.lt_irrefl _)
        | again hf _ => exact absurd (isFinal_lt hf) (Nat.lt_irrefl _)
        | skip hempty => exact ⟨rfl, .inr ⟨hempty, rfl⟩⟩
    rcases hrun.of_bridges hentries with ⟨heq, _⟩ | ⟨t, rfl | ⟨hempty, rfl⟩, hrun⟩
    · exact absurd heq (Nat.succ_ne_self _)
    · rcases run_iterate_last ha allowEmpty n hrun ha.initial_lt with
        ⟨cs, ds, f, rfl, hf, hleft, hright⟩
      exact .inl (Language.append_mem_mul ⟨f, hf, hleft⟩ hright)
    · exact .inr ⟨hempty, hrun.eq_nil fun t ht => iterate_last ha allowEmpty n ht⟩
  · intro h
    refine ⟨a.stateCount + 1, (hshape.final_iff _).2 rfl, ?_⟩
    rw [hshape.initial_eq]
    rcases h with h | ⟨hempty, rfl⟩
    · rcases Language.mem_mul.1 h with ⟨cs, hcs, ds, hds, rfl⟩
      rcases Language.mem_kstar.1 hds with ⟨words, rfl, hwords⟩
      exact .epsilon ((mem_transitions_iterate ha allowEmpty n).2 (.inr .enter))
        (run_iterate_of_flatten ha allowEmpty n hcs hwords)
    · exact .epsilon ((mem_transitions_iterate ha allowEmpty n).2 (.inr (.skip hempty))) (.nil _)

theorem language_star : (a.star n).1.language matching = (a.language matching)∗ := by
  ext bs
  rw [star, mem_language_iterate ha true n]
  conv_rhs => rw [← Language.one_add_self_mul_kstar_eq_kstar, Language.mem_add, Language.mem_one]
  simp [or_comm]

theorem language_plus :
    (a.plus n).1.language matching = a.language matching * (a.language matching)∗ := by
  ext bs
  rw [plus, mem_language_iterate ha false n]
  simp

end Iteration

/-! ## Copies, powers and the automata to start from -/

theorem language_epsilon (n : Nat) : (epsilon n).1.language matching = 1 := by
  have hshape := epsilon_shape n
  ext bs
  rw [Language.mem_one]
  constructor
  · rintro ⟨u, _, hrun⟩
    refine hrun.eq_nil ?_
    intro t ht
    exact absurd ((hshape.mem_iff t).1 ht) id
  · rintro rfl
    refine ⟨0, (hshape.final_iff 0).2 rfl, ?_⟩
    rw [hshape.initial_eq]
    exact .nil 0

theorem mem_language_single {symbol : Symbol} (hsymbol : symbol.isEpsilon = false) (n : Nat)
    {bs : List β} :
    bs ∈ (single symbol n).1.language matching ↔ ∃ b, bs = [b] ∧ matching symbol b := by
  have hshape := single_shape symbol n
  constructor
  · rintro ⟨u, hu, hrun⟩
    rw [hshape.initial_eq] at hrun
    obtain rfl := (hshape.final_iff u).1 hu
    cases hrun with
    | epsilon ht _ =>
      have heq := (hshape.mem_iff _).1 ht
      simp only [Transition.mk.injEq] at heq
      rw [← heq.2.2] at hsymbol
      exact absurd hsymbol Bool.noConfusion
    | step ht _ hb hrun =>
      have heq := (hshape.mem_iff _).1 ht
      simp only [Transition.mk.injEq] at heq
      rcases heq with ⟨-, rfl, rfl⟩
      have hnil := hrun.eq_nil (s := 1) ?_
      · rw [hnil]
        exact ⟨_, rfl, hb⟩
      · intro t ht
        rw [(hshape.mem_iff t).1 ht]
        exact Nat.zero_ne_one
  · rintro ⟨b, rfl, hb⟩
    refine ⟨1, (hshape.final_iff 1).2 rfl, ?_⟩
    rw [hshape.initial_eq]
    exact .step ((hshape.mem_iff _).2 rfl) hsymbol hb (.nil 1)

/-- The language depends on nothing but the transitions, the initial and the final states. -/
theorem Shape.language_eq {count : Nat}
    (h : c.Shape count a.initial (· ∈ a.transitions) (a.isFinal · = true)) :
    c.language matching = a.language matching := by
  ext bs
  rw [mem_language, mem_language, h.initial_eq]
  have hruns : ∀ {s u : StateId},
      Run c (bySymbol matching) s bs u ↔ Run a (bySymbol matching) s bs u := by
    intro s u
    constructor
    · intro hrun
      exact Run.map (f := id) (fun ht => (h.mem_iff _).1 ht) hrun
    · intro hrun
      exact Run.map (f := id) (fun ht => (h.mem_iff _).2 ht) hrun
  simp only [h.final_iff, hruns]

theorem language_copy (ha : a.WellFormed) (register : Bool) (n : Nat) :
    (a.copy register n).1.language matching = a.language matching :=
  (copy_shape ha register n).language_eq

theorem appendCopies_wellFormed (ha : a.WellFormed) (count : Nat) {out : Automaton}
    (hout : out.WellFormed) (n : Nat) : (a.appendCopies count out n).1.WellFormed := by
  induction count generalizing out n with
  | zero =>
    exact hout
  | succ count ih =>
    exact ih (concat_shape hout (copy_shape ha true n).wellFormed).wellFormed _

theorem language_appendCopies (ha : a.WellFormed) (count : Nat) {out : Automaton}
    (hout : out.WellFormed) (n : Nat) :
    (a.appendCopies count out n).1.language matching =
      out.language matching * a.language matching ^ count := by
  induction count generalizing out n with
  | zero =>
    rw [pow_zero, mul_one]
    rfl
  | succ count ih =>
    have hcopy := (copy_shape ha true n).wellFormed
    refine (ih (concat_shape hout hcopy).wellFormed _).trans ?_
    rw [language_concat hout hcopy, language_copy ha, mul_assoc, ← pow_succ']

theorem power_wellFormed (ha : a.WellFormed) (count n : Nat) :
    (a.power count n).1.WellFormed := by
  cases count with
  | zero =>
    exact (epsilon_shape n).wellFormed
  | succ count =>
    exact appendCopies_wellFormed ha count (copy_shape ha true n).wellFormed _

theorem language_power (ha : a.WellFormed) (count n : Nat) :
    (a.power count n).1.language matching = a.language matching ^ count := by
  cases count with
  | zero =>
    exact (language_epsilon n).trans (pow_zero _).symm
  | succ count =>
    refine (language_appendCopies ha count (copy_shape ha true n).wellFormed _).trans ?_
    rw [language_copy ha, ← pow_succ']

/-! ## Reversal -/

section Reverse

variable {mirror : β → β}

/-- The letters from the last to the first, each seen in the mirror. -/
def mirrored (mirror : β → β) (bs : List β) : List β :=
  bs.reverse.map mirror

theorem mirrored_append (bs cs : List β) :
    mirrored mirror (bs ++ cs) = mirrored mirror cs ++ mirrored mirror bs := by
  simp [mirrored]

theorem mirrored_mirrored (hmirror : Function.Involutive mirror) (bs : List β) :
    mirrored mirror (mirrored mirror bs) = bs := by
  simp [mirrored, hmirror.comp_self]

variable (hmirror : Function.Involutive mirror)
  (hmatching : ∀ (symbol : Symbol) (b : β),
    matching symbol.reversed (mirror b) ↔ matching symbol b)
include hmatching

theorem reads_reversed {symbol : Symbol} {bs : List β} (h : Reads (matching symbol) symbol bs) :
    Reads (matching symbol.reversed) symbol.reversed (mirrored mirror bs) := by
  cases h with
  | nothing =>
    exact .nothing
  | letter hsymbol hb =>
    exact .letter (by rwa [Symbol.isEpsilon_reversed]) ((hmatching _ _).2 hb)

theorem Run.flipped (hin : ∀ t ∈ a.transitions, flipped t ∈ c.transitions) {s u : StateId}
    {bs : List β} (h : Run a (bySymbol matching) s bs u) :
    Run c (bySymbol matching) u (mirrored mirror bs) s := by
  induction h using Run.moveInduction with
  | nil =>
    exact .nil _
  | move ht hreads _ ih =>
    rw [mirrored_append]
    exact ih.snoc (hin _ ht) (reads_reversed hmatching hreads)

include hmirror

theorem reads_of_reversed {symbol : Symbol} {bs : List β}
    (h : Reads (matching symbol.reversed) symbol.reversed bs) :
    Reads (matching symbol) symbol (mirrored mirror bs) := by
  by_cases hsymbol : symbol.isEpsilon = true
  · obtain rfl := Symbol.eq_epsilon hsymbol
    rw [reads_epsilon_iff.1 h]
    exact .nothing
  · rw [Bool.not_eq_true] at hsymbol
    rcases (reads_iff (by rwa [Symbol.isEpsilon_reversed])).1 h with ⟨b, rfl, hb⟩
    refine .letter hsymbol ((hmatching _ _).1 ?_)
    rwa [hmirror b]

/-- Where only reversed transitions can be followed, the runs are the reversed runs. -/
theorem run_flipped_iff (ha : a.WellFormed) (hin : ∀ t ∈ a.transitions, flipped t ∈ c.transitions)
    (hout : ∀ t ∈ c.transitions, t.source < a.stateCount → ∃ u ∈ a.transitions, t = flipped u)
    {s u : StateId} {bs : List β} (hu : u < a.stateCount) :
    Run c (bySymbol matching) u bs s ↔
      Run a (bySymbol matching) s (mirrored mirror bs) u := by
  constructor
  · intro h
    induction h using Run.moveInduction with
    | nil =>
      exact .nil _
    | move ht hreads _ ih =>
      rcases hout _ ht hu with ⟨⟨s', t', symbol'⟩, hmem, heq⟩
      simp only [Automaton.flipped, Transition.mk.injEq] at heq
      rcases heq with ⟨rfl, rfl, rfl⟩
      rw [mirrored_append]
      exact (ih (ha.source_lt hmem)).snoc hmem (reads_of_reversed hmirror hmatching hreads)
  · intro h
    have hrun := h.flipped hmatching hin
    rwa [mirrored_mirrored hmirror] at hrun

theorem mem_language_reverse (ha : a.WellFormed) (n : Nat) {bs : List β} :
    bs ∈ (a.reverse n).1.language matching ↔ mirrored mirror bs ∈ a.language matching := by
  rw [mem_language, mem_language]
  rcases reverse_shape ha n with ⟨only, honly, hshape⟩ | hshape
  · have hlt : only < a.stateCount := isFinal_lt ((honly only).2 rfl)
    have hruns : Run (a.reverse n).1 (bySymbol matching) only bs a.initial ↔
        Run a (bySymbol matching) a.initial (mirrored mirror bs) only := by
      refine run_flipped_iff hmirror hmatching ha ?_ ?_ hlt
      · intro t ht
        exact (hshape.mem_iff _).2 ⟨t, ht, rfl⟩
      · intro t ht _
        exact (hshape.mem_iff t).1 ht
    simp only [hshape.final_iff, hshape.initial_eq, honly, exists_eq_left, hruns]
  · have hruns : ∀ {f : StateId}, f < a.stateCount →
        (Run (a.reverse n).1 (bySymbol matching) f bs a.initial ↔
          Run a (bySymbol matching) a.initial (mirrored mirror bs) f) := by
      intro f hf
      refine run_flipped_iff hmirror hmatching ha ?_ ?_ hf
      · intro t ht
        exact (hshape.mem_iff _).2 (.inl ⟨t, ht, rfl⟩)
      · intro t ht hlt
        rcases (hshape.mem_iff t).1 ht with ht | ⟨f, _, rfl⟩
        · exact ht
        · exact absurd hlt (Nat.lt_irrefl _)
    have hentries : ∀ {t : StateId} {symbol : Symbol},
        ⟨a.stateCount, t, symbol⟩ ∈ (a.reverse n).1.transitions →
        symbol = .epsilon ∧ a.isFinal t = true := by
      intro t symbol ht
      rcases (hshape.mem_iff _).1 ht with ⟨u, hu, heq⟩ | ⟨f, hf, heq⟩
      · have := ha.target_lt hu
        simp only [Automaton.flipped, Transition.mk.injEq] at heq
        lia
      · simp only [Transition.mk.injEq] at heq
        rcases heq with ⟨-, rfl, rfl⟩
        exact ⟨rfl, hf⟩
    have hi := ha.initial_lt
    constructor
    · rintro ⟨u, hu, hrun⟩
      rw [hshape.initial_eq] at hrun
      obtain rfl := (hshape.final_iff u).1 hu
      rcases hrun.of_bridges hentries with ⟨heq, _⟩ | ⟨f, hf, hrun⟩
      · lia
      · exact ⟨f, hf, (hruns (isFinal_lt hf)).1 hrun⟩
    · rintro ⟨f, hf, hrun⟩
      refine ⟨a.initial, (hshape.final_iff _).2 rfl, ?_⟩
      rw [hshape.initial_eq]
      exact .epsilon ((hshape.mem_iff _).2 (.inr ⟨f, hf, rfl⟩))
        ((hruns (isFinal_lt hf)).2 hrun)

end Reverse

end Automaton
end PathQuery

import PathQuery.Proofs.Automaton.Accepting
import PathQuery.Proofs.Automaton.Distinct

/-!
# Automata without idle states

A state is idle if it cannot be reached or if nothing final can be reached from it.  No operation
makes such a state.  The two halves are shown together, since reversal exchanges them.

* `Automaton.Trim`: every state is on the way from the initial state to a final one;
* `Shape.trim`: this depends on which states are linked and on nothing else about the transitions;
* `concat_trim`, `union_trim`, `iterate_trim`, `optional_trim`, `power_trim`, `reverse_trim`: every
  operation keeps the property;
* `dedupTransitions_shape`, `dedupTransitions_trim`: so does dropping parallel transitions.
-/

namespace PathQuery
namespace Automaton

structure Trim (a : Automaton) : Prop where
  reached {s : StateId} : s < a.stateCount → a.Leads a.initial s
  finishes {s : StateId} : s < a.stateCount → ∃ f, a.isFinal f = true ∧ a.Leads s f

variable {a b c : Automaton}

theorem Trim.accepting (ha : a.WellFormed) (h : a.Trim) : a.Accepting := by
  rcases h.finishes ha.initial_lt with ⟨f, hf, _⟩
  exact ⟨⟨f, hf⟩, fun hf => h.reached (isFinal_lt hf)⟩

/-! ## The automata to start from -/

theorem epsilon_trim (n : Nat) : (epsilon n).1.Trim := by
  have hshape := epsilon_shape n
  have hzero : ∀ {s}, s < (epsilon n).1.stateCount → s = 0 := by
    intro s hs
    rw [hshape.stateCount_eq] at hs
    exact Nat.lt_one_iff.1 hs
  constructor
  · intro s hs
    rw [hshape.initial_eq, hzero hs]
  · intro s hs
    exact ⟨s, (hshape.final_iff s).2 (hzero hs), .refl⟩

theorem single_trim (symbol : Symbol) (n : Nat) : (single symbol n).1.Trim := by
  have hshape := single_shape symbol n
  have hstep : (single symbol n).1.Leads 0 1 := leads_of_mem ((hshape.mem_iff _).2 rfl)
  have hstates : ∀ {s}, s < (single symbol n).1.stateCount → s = 0 ∨ s = 1 := by
    intro s hs
    rw [hshape.stateCount_eq] at hs
    lia
  constructor
  · intro s hs
    rw [hshape.initial_eq]
    rcases hstates hs with rfl | rfl
    · exact .refl
    · exact hstep
  · intro s hs
    refine ⟨1, (hshape.final_iff 1).2 rfl, ?_⟩
    rcases hstates hs with rfl | rfl
    · exact hstep
    · exact .refl

/-! ## Operations -/

theorem Shape.trim {links : Transition → Prop}
    (h : c.Shape a.stateCount a.initial links (a.isFinal · = true))
    (hlinks : ∀ t ∈ a.transitions, ∃ symbol, links ⟨t.source, t.target, symbol⟩) (ha : a.Trim) :
    c.Trim := by
  have hleads : ∀ {s t}, a.Leads s t → c.Leads s t := by
    intro s t
    refine Relation.ReflTransGen.mono ?_ s t
    rintro s t ⟨symbol, ht⟩
    rcases hlinks _ ht with ⟨symbol', ht'⟩
    exact ⟨symbol', (h.mem_iff _).2 ht'⟩
  constructor
  · intro s hs
    rw [h.stateCount_eq] at hs
    rw [h.initial_eq]
    exact hleads (ha.reached hs)
  · intro s hs
    rw [h.stateCount_eq] at hs
    rcases ha.finishes hs with ⟨f, hf, hleaves⟩
    exact ⟨f, (h.final_iff f).2 hf, hleads hleaves⟩

theorem copy_trim (ha : a.WellFormed) (htrim : a.Trim) (register : Bool) (n : Nat) :
    (a.copy register n).1.Trim :=
  (copy_shape ha register n).trim (fun t ht => ⟨t.symbol, ht⟩) htrim

/-- A state of two automata side by side belongs to the one or to the other. -/
theorem exists_of_lt_add {s m k : Nat} (h : s < m + k) : s < m ∨ ∃ s' < k, s = s' + m := by
  by_cases hlt : s < m
  · exact .inl hlt
  · exact .inr ⟨s - m, by lia, by lia⟩

theorem Beside.leads_left (hc : ∀ {t}, Beside a b t → t ∈ c.transitions) {s t : StateId}
    (h : a.Leads s t) : c.Leads s t :=
  leads_map (f := id) (fun ht => hc (.inl ht)) h

theorem Beside.leads_right (hc : ∀ {t}, Beside a b t → t ∈ c.transitions) {s t : StateId}
    (h : b.Leads s t) : c.Leads (s + a.stateCount) (t + a.stateCount) :=
  leads_map (f := (· + a.stateCount)) (fun ht => hc (.inr ⟨_, ht, rfl⟩)) h

theorem concat_trim (ha : a.WellFormed) (hb : b.WellFormed) (hatrim : a.Trim) (hbtrim : b.Trim) :
    (a.concat b).Trim := by
  have hshape := concat_shape ha hb
  have hbeside : ∀ {t}, Beside a b t → t ∈ (a.concat b).transitions :=
    fun ht => (hshape.mem_iff _).2 (.inl ht)
  have hcross : ∀ {f}, a.isFinal f = true → (a.concat b).Leads f (b.initial + a.stateCount) :=
    fun hf => leads_of_mem ((hshape.mem_iff _).2 (.inr ⟨_, hf, rfl⟩))
  have hfinal : ∀ {f}, b.isFinal f = true → (a.concat b).isFinal (f + a.stateCount) = true := by
    intro f hf
    refine (hshape.final_iff _).2 ⟨Nat.le_add_left _ _, ?_⟩
    rwa [Nat.add_sub_cancel]
  constructor
  · intro s hs
    rw [hshape.stateCount_eq] at hs
    rw [hshape.initial_eq]
    rcases exists_of_lt_add hs with hlt | ⟨s, hlt, rfl⟩
    · exact Beside.leads_left hbeside (hatrim.reached hlt)
    · -- The second automaton is entered from a final state of the first.
      rcases hatrim.finishes ha.initial_lt with ⟨f, hf, hthrough⟩
      have hfirst := Beside.leads_left hbeside hthrough
      have hsecond := Beside.leads_right hbeside (hbtrim.reached hlt)
      exact (hfirst.trans (hcross hf)).trans hsecond
  · intro s hs
    rw [hshape.stateCount_eq] at hs
    rcases exists_of_lt_add hs with hlt | ⟨s, hlt, rfl⟩
    · -- What was final in the first is not any more, so the way goes on through the second.
      rcases hatrim.finishes hlt with ⟨f, hf, hfirst⟩
      rcases hbtrim.finishes hb.initial_lt with ⟨f', hf', hsecond⟩
      exact ⟨_, hfinal hf', ((Beside.leads_left hbeside hfirst).trans (hcross hf)).trans
        (Beside.leads_right hbeside hsecond)⟩
    · rcases hbtrim.finishes hlt with ⟨f, hf, hleaves⟩
      exact ⟨_, hfinal hf, Beside.leads_right hbeside hleaves⟩

theorem union_trim (ha : a.WellFormed) (hb : b.WellFormed) (hatrim : a.Trim) (hbtrim : b.Trim)
    (n : Nat) : (a.union b n).1.Trim := by
  have hshape := union_shape ha hb n
  have hbeside : ∀ {t}, Beside a b t → t ∈ (a.union b n).1.transitions :=
    fun ht => (hshape.mem_iff _).2 (.inl ht)
  -- The new state is initial and leads to both initial states.
  have hfirst : (a.union b n).1.Leads (a.stateCount + b.stateCount) a.initial :=
    leads_of_mem ((hshape.mem_iff _).2 (.inr (.inl rfl)))
  have hsecond : (a.union b n).1.Leads (a.stateCount + b.stateCount) (b.initial + a.stateCount) :=
    leads_of_mem ((hshape.mem_iff _).2 (.inr (.inr rfl)))
  have hleft : ∀ {s}, s < a.stateCount →
      ∃ f, (a.union b n).1.isFinal f = true ∧ (a.union b n).1.Leads s f := by
    intro s hlt
    rcases hatrim.finishes hlt with ⟨f, hf, hleaves⟩
    refine ⟨f, (hshape.final_iff f).2 ?_, Beside.leads_left hbeside hleaves⟩
    rwa [if_pos (isFinal_lt hf)]
  constructor
  · intro s hs
    rw [hshape.stateCount_eq] at hs
    rw [hshape.initial_eq]
    rcases Nat.lt_succ_iff_lt_or_eq.1 hs with hs | rfl
    · rcases exists_of_lt_add hs with hlt | ⟨s, hlt, rfl⟩
      · exact hfirst.trans (Beside.leads_left hbeside (hatrim.reached hlt))
      · exact hsecond.trans (Beside.leads_right hbeside (hbtrim.reached hlt))
    · exact .refl
  · intro s hs
    rw [hshape.stateCount_eq] at hs
    rcases Nat.lt_succ_iff_lt_or_eq.1 hs with hs | rfl
    · rcases exists_of_lt_add hs with hlt | ⟨s, hlt, rfl⟩
      · exact hleft hlt
      · rcases hbtrim.finishes hlt with ⟨f, hf, hleaves⟩
        refine ⟨f + a.stateCount, (hshape.final_iff _).2 ?_,
          Beside.leads_right hbeside hleaves⟩
        rwa [if_neg (Nat.not_lt.2 (Nat.le_add_left _ _)), Nat.add_sub_cancel]
    · -- The new state is not final itself.
      rcases hleft ha.initial_lt with ⟨f, hf, hleaves⟩
      exact ⟨f, hf, hfirst.trans hleaves⟩

theorem iterate_trim (ha : a.WellFormed) (htrim : a.Trim) (allowEmpty : Bool) (n : Nat) :
    (a.iterate allowEmpty n).1.Trim := by
  have hshape := iterate_shape ha allowEmpty n
  have hinner : ∀ {s t}, a.Leads s t → (a.iterate allowEmpty n).1.Leads s t :=
    leads_map (f := id) fun ht => (hshape.mem_iff _).2 (.inl ht)
  -- Of the two new states one is initial, and the other is the only one that is final.
  have henter : (a.iterate allowEmpty n).1.Leads a.stateCount a.initial :=
    leads_of_mem ((hshape.mem_iff _).2 (.inr .enter))
  have hleave : ∀ {s}, s < a.stateCount →
      (a.iterate allowEmpty n).1.Leads s (a.stateCount + 1) := by
    intro s hlt
    rcases htrim.finishes hlt with ⟨f, hf, hleaves⟩
    exact (hinner hleaves).trans (leads_of_mem ((hshape.mem_iff _).2 (.inr (.leave hf))))
  have hstates : ∀ {s}, s < (a.iterate allowEmpty n).1.stateCount →
      s < a.stateCount ∨ s = a.stateCount ∨ s = a.stateCount + 1 := by
    intro s hs
    rw [hshape.stateCount_eq] at hs
    lia
  have hacross := henter.trans (hleave ha.initial_lt)
  constructor
  · intro s hs
    rw [hshape.initial_eq]
    rcases hstates hs with hlt | rfl | rfl
    · exact henter.trans (hinner (htrim.reached hlt))
    · exact .refl
    · exact hacross
  · intro s hs
    refine ⟨a.stateCount + 1, (hshape.final_iff _).2 rfl, ?_⟩
    rcases hstates hs with hlt | rfl | rfl
    · exact hleave hlt
    · exact hacross
    · exact .refl

theorem optional_trim (ha : a.WellFormed) (htrim : a.Trim) (n : Nat) :
    (a.optional n).1.Trim := by
  have hshape := optional_shape ha n
  have hinner : ∀ {s t}, a.Leads s t → (a.optional n).1.Leads s t :=
    leads_map (f := id) fun ht => (hshape.mem_iff _).2 (.inl ht)
  have henter : (a.optional n).1.Leads a.stateCount a.initial :=
    leads_of_mem ((hshape.mem_iff _).2 (.inr rfl))
  constructor
  · intro s hs
    rw [hshape.stateCount_eq] at hs
    rw [hshape.initial_eq]
    rcases Nat.lt_succ_iff_lt_or_eq.1 hs with hlt | rfl
    · exact henter.trans (hinner (htrim.reached hlt))
    · exact .refl
  · intro s hs
    rw [hshape.stateCount_eq] at hs
    rcases Nat.lt_succ_iff_lt_or_eq.1 hs with hlt | rfl
    · rcases htrim.finishes hlt with ⟨f, hf, hleaves⟩
      exact ⟨f, (hshape.final_iff f).2 (.inr hf), hinner hleaves⟩
    · exact ⟨_, (hshape.final_iff _).2 (.inl rfl), .refl⟩

theorem appendCopies_trim (ha : a.WellFormed) (htrim : a.Trim) (count : Nat) {out : Automaton}
    (hout : out.WellFormed) (houttrim : out.Trim) (n : Nat) :
    (a.appendCopies count out n).1.Trim := by
  induction count generalizing out n with
  | zero =>
    exact houttrim
  | succ count ih =>
    have hcopy := (copy_shape ha true n).wellFormed
    exact ih (concat_shape hout hcopy).wellFormed
      (concat_trim hout hcopy houttrim (copy_trim ha htrim true n)) _

theorem power_trim (ha : a.WellFormed) (htrim : a.Trim) (count n : Nat) :
    (a.power count n).1.Trim := by
  cases count with
  | zero =>
    exact epsilon_trim n
  | succ count =>
    exact appendCopies_trim ha htrim count (copy_shape ha true n).wellFormed
      (copy_trim ha htrim true n) _

theorem reverse_trim (ha : a.WellFormed) (htrim : a.Trim) (n : Nat) : (a.reverse n).1.Trim := by
  rcases reverse_shape ha n with ⟨only, honly, hshape⟩ | hshape
  · -- The only final state becomes the initial one.
    have hback : ∀ {s t}, a.Leads s t → (a.reverse n).1.Leads t s :=
      leads_flipped fun t ht => (hshape.mem_iff _).2 ⟨t, ht, rfl⟩
    constructor
    · intro s hs
      rw [hshape.stateCount_eq] at hs
      rw [hshape.initial_eq]
      rcases htrim.finishes hs with ⟨f, hf, hleaves⟩
      rw [(honly f).1 hf] at hleaves
      exact hback hleaves
    · intro s hs
      rw [hshape.stateCount_eq] at hs
      exact ⟨a.initial, (hshape.final_iff _).2 rfl, hback (htrim.reached hs)⟩
  · -- A new initial state leads to all that were final.
    have hback : ∀ {s t}, a.Leads s t → (a.reverse n).1.Leads t s :=
      leads_flipped fun t ht => (hshape.mem_iff _).2 (.inl ⟨t, ht, rfl⟩)
    have henter : ∀ {s}, s < a.stateCount → (a.reverse n).1.Leads a.stateCount s := by
      intro s hlt
      rcases htrim.finishes hlt with ⟨f, hf, hleaves⟩
      exact (leads_of_mem ((hshape.mem_iff _).2 (.inr ⟨f, hf, rfl⟩))).trans (hback hleaves)
    constructor
    · intro s hs
      rw [hshape.stateCount_eq] at hs
      rw [hshape.initial_eq]
      rcases Nat.lt_succ_iff_lt_or_eq.1 hs with hlt | rfl
      · exact henter hlt
      · exact .refl
    · intro s hs
      rw [hshape.stateCount_eq] at hs
      refine ⟨a.initial, (hshape.final_iff _).2 rfl, ?_⟩
      rcases Nat.lt_succ_iff_lt_or_eq.1 hs with hlt | rfl
      · exact hback (htrim.reached hlt)
      · exact henter ha.initial_lt

/-! ## Parallel transitions -/

theorem dedupTransitions_apply (a : Automaton) : a.dedupTransitions.2 =
    if a.transitions.size ≤ (distinctTransitions a.transitions.toList).length then a
    else (distinctTransitions a.transitions.toList).foldl
      (fun b t => b.addTransition t.source t.target t.symbol) (a.stripped (·.isFinal)) := by
  simp only [dedupTransitions, Nat.sub_eq_zero_iff_le]
  split
  · rfl
  · rfl

theorem dedupTransitions_shape (ha : a.WellFormed) :
    a.dedupTransitions.2.Shape a.stateCount a.initial
      (· ∈ distinctTransitions a.transitions.toList) (a.isFinal · = true) := by
  have hsublist := distinctTransitions_sublist a.transitions.toList
  have hmem : ∀ t ∈ distinctTransitions a.transitions.toList, t ∈ a.transitions :=
    fun t ht => Array.mem_toList_iff.1 (hsublist.subset ht)
  rw [dedupTransitions_apply]
  split
  · rename_i hle
    -- Nothing was dropped.
    rw [hsublist.eq_of_length_le hle]
    exact ha.shape.congr (fun t => Array.mem_toList_iff.symm) fun _ => Iff.rfl
  · refine ((stripped_shape ha (·.isFinal)).foldl_addTransition id ?_ ?_ ?_).congr ?_ ?_
    · exact fun t ht => ha.source_lt (hmem t ht)
    · exact fun t ht => ha.target_lt (hmem t ht)
    · exact fun t ht => ha.no_loop (hmem t ht)
    · intro t
      simp
    · intro s
      rw [isFinal, Option.any_eq_true]

theorem dedupTransitions_trim (ha : a.WellFormed) (htrim : a.Trim) :
    a.dedupTransitions.2.Trim := by
  refine (dedupTransitions_shape ha).trim ?_ htrim
  intro t ht
  rcases exists_sameTransition (Array.mem_toList_iff.2 ht) with
    ⟨⟨source, target, symbol⟩, hu, hsame⟩
  obtain ⟨rfl, rfl⟩ := ends_eq_of_same hsame
  exact ⟨symbol, hu⟩

end Automaton
end PathQuery

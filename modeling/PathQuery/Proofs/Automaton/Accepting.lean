import PathQuery.Automaton.Validate
import PathQuery.Proofs.Automaton.Shape
import PathQuery.Proofs.Reachable

/-!
# Automata that pass the check

An automaton is refused if a final state cannot be reached.  That no operation makes such a state
needs a little more: there has to be a final state, so that what follows it can be reached.

* `Automaton.Accepting`: there is a final state and all of them are reached from the initial one;
* `validate_eq_none`: a well-formed automaton with this property passes the check;
* `concat_accepting`, `union_accepting`, `iterate_accepting`, `optional_accepting`,
  `power_accepting`, `reverse_accepting`: every operation keeps the property.
-/

namespace PathQuery
namespace Automaton

/-- Some transition leads from the one state to the other. -/
def Linked (a : Automaton) (s t : StateId) : Prop :=
  ∃ symbol, ⟨s, t, symbol⟩ ∈ a.transitions

abbrev Leads (a : Automaton) : StateId → StateId → Prop :=
  Relation.ReflTransGen a.Linked

structure Accepting (a : Automaton) : Prop where
  exists_final : ∃ f, a.isFinal f = true
  leads {f : StateId} : a.isFinal f = true → a.Leads a.initial f

variable {a b c : Automaton}

/-! ## The check -/

theorem transitionFaults_eq_nil (ha : a.WellFormed) : a.transitionFaults = [] := by
  rw [transitionFaults, List.filterMap_eq_nil_iff]
  rintro ⟨t, i⟩ hmem
  have hi : a.transitions[i]? = some t := by
    have := List.mem_zipIdx_iff_getElem?.1 hmem
    rwa [Array.getElem?_toList] at this
  have ht := Array.mem_of_getElem? hi
  have hlt : i < a.transitions.size := (Array.getElem?_eq_some_iff.1 hi).1
  have hsource := ha.source_lt ht
  have htarget := ha.target_lt ht
  have hrange : (decide (a.stateCount ≤ t.source) || decide (a.stateCount ≤ t.target)) = false := by
    simp [hsource, htarget]
  have hloop : (t.symbol.isEpsilon && t.source == t.target) = false := by
    cases hsymbol : t.symbol.isEpsilon with
    | false => rfl
    | true => simp [ha.no_loop ht hsymbol]
  rcases exists_state a hsource with ⟨state, hs⟩
  rcases exists_state a htarget with ⟨state', hs'⟩
  have hout : state.out.contains i = true := by
    rw [ha.out_eq hs, List.contains_iff_mem, leaving, mem_incident]
    exact ⟨hlt, by rw [sourceAt, hi]; rfl⟩
  have hinc : state'.inc.contains i = true := by
    rw [ha.inc_eq hs', List.contains_iff_mem, entering, mem_incident]
    exact ⟨hlt, by rw [targetAt, hi]; rfl⟩
  simp only [transitionFault, hrange, hloop, hs, hs', Option.any_some, hout, hinc, Bool.and_self,
    Bool.false_eq_true, if_false, if_true]

theorem mem_reachableStates (ha : a.Indexed) {s : StateId} :
    s ∈ a.reachableStates ↔ a.Leads a.initial s := by
  have hsame : NextStep (fun s => (a.outTransitions s).map (·.target)) = a.Linked := by
    funext s t
    refine propext ⟨?_, ?_⟩
    · intro h
      rcases List.mem_map.1 h with ⟨⟨s', t', symbol⟩, hmem, rfl⟩
      rcases ha.mem_outTransitions.1 hmem with ⟨hmem', rfl⟩
      exact ⟨symbol, hmem'⟩
    · rintro ⟨symbol, hmem⟩
      exact List.mem_map.2 ⟨_, ha.mem_outTransitions.2 ⟨hmem, rfl⟩, rfl⟩
  rw [reachableStates, Leads, ← hsame]
  refine mem_reachableFrom ?_ (Nat.le_refl _)
  intro s hs
  rcases List.exists_mem_of_ne_nil _ hs with ⟨t, ht⟩
  rcases List.mem_map.1 ht with ⟨u, hu, _⟩
  rcases ha.mem_outTransitions.1 hu with ⟨hmem, rfl⟩
  exact ha.source_lt hmem

theorem validate_eq_none (ha : a.WellFormed) (haccepting : a.Accepting) : a.validate = none := by
  rw [validate, if_neg (Nat.not_le.2 ha.initial_lt), transitionFaults_eq_nil ha]
  simp only [Option.map_eq_none_iff, List.find?_eq_none]
  intro f hf
  have := (mem_reachableStates ha.toIndexed).2 (haccepting.leads (ha.mem_finals.1 hf))
  simp [this]

/-! ## Operations -/

theorem leads_map {f : StateId → StateId}
    (hf : ∀ {s t : StateId} {symbol : Symbol}, ⟨s, t, symbol⟩ ∈ a.transitions →
      ⟨f s, f t, symbol⟩ ∈ c.transitions)
    {s t : StateId} (h : a.Leads s t) : c.Leads (f s) (f t) := by
  refine Relation.ReflTransGen.lift f ?_ s t h
  rintro s t ⟨symbol, ht⟩
  exact ⟨symbol, hf ht⟩

theorem leads_of_mem {s t : StateId} {symbol : Symbol} (h : ⟨s, t, symbol⟩ ∈ a.transitions) :
    a.Leads s t :=
  .single ⟨symbol, h⟩

theorem epsilon_accepting (n : Nat) : (epsilon n).1.Accepting := by
  have hshape := epsilon_shape n
  refine ⟨⟨0, (hshape.final_iff 0).2 rfl⟩, ?_⟩
  intro f hf
  rw [hshape.initial_eq, (hshape.final_iff f).1 hf]

theorem single_accepting (symbol : Symbol) (n : Nat) : (single symbol n).1.Accepting := by
  have hshape := single_shape symbol n
  refine ⟨⟨1, (hshape.final_iff 1).2 rfl⟩, ?_⟩
  intro f hf
  rw [hshape.initial_eq, (hshape.final_iff f).1 hf]
  exact leads_of_mem ((hshape.mem_iff _).2 rfl)

/-- Only the transitions, the initial and the final states count. -/
theorem Shape.accepting {count : Nat}
    (h : c.Shape count a.initial (· ∈ a.transitions) (a.isFinal · = true)) (ha : a.Accepting) :
    c.Accepting := by
  rcases ha.exists_final with ⟨f, hf⟩
  refine ⟨⟨f, (h.final_iff f).2 hf⟩, ?_⟩
  intro f hf
  rw [h.initial_eq]
  exact leads_map (f := id) (fun ht => (h.mem_iff _).2 ht) (ha.leads ((h.final_iff f).1 hf))

theorem copy_accepting (ha : a.WellFormed) (haccepting : a.Accepting) (register : Bool) (n : Nat) :
    (a.copy register n).1.Accepting :=
  (copy_shape ha register n).accepting haccepting

theorem concat_accepting (ha : a.WellFormed) (hb : b.WellFormed) (haccepting : a.Accepting)
    (hbaccepting : b.Accepting) : (a.concat b).Accepting := by
  have hshape := concat_shape ha hb
  rcases haccepting.exists_final with ⟨f, hf⟩
  rcases hbaccepting.exists_final with ⟨f', hf'⟩
  constructor
  · refine ⟨f' + a.stateCount, (hshape.final_iff _).2 ⟨Nat.le_add_left _ _, ?_⟩⟩
    rwa [Nat.add_sub_cancel]
  · intro u hu
    rw [hshape.initial_eq]
    rcases (hshape.final_iff u).1 hu with ⟨hle, hfinal⟩
    have hfirst : (a.concat b).Leads a.initial f :=
      leads_map (f := id) (fun ht => (hshape.mem_iff _).2 (.inl (.inl ht))) (haccepting.leads hf)
    have hcross : (a.concat b).Leads f (b.initial + a.stateCount) :=
      leads_of_mem ((hshape.mem_iff _).2 (.inr ⟨f, hf, rfl⟩))
    have hsecond : (a.concat b).Leads (b.initial + a.stateCount)
        (u - a.stateCount + a.stateCount) :=
      leads_map (f := (· + a.stateCount))
        (fun ht => (hshape.mem_iff _).2 (.inl (.inr ⟨_, ht, rfl⟩))) (hbaccepting.leads hfinal)
    rw [Nat.sub_add_cancel hle] at hsecond
    exact (hfirst.trans hcross).trans hsecond

theorem union_accepting (ha : a.WellFormed) (hb : b.WellFormed) (haccepting : a.Accepting)
    (hbaccepting : b.Accepting) (n : Nat) : (a.union b n).1.Accepting := by
  have hshape := union_shape ha hb n
  rcases haccepting.exists_final with ⟨f, hf⟩
  constructor
  · refine ⟨f, (hshape.final_iff f).2 ?_⟩
    rwa [if_pos (isFinal_lt hf)]
  · intro u hu
    have hu := (hshape.final_iff u).1 hu
    rw [hshape.initial_eq]
    by_cases hlt : u < a.stateCount
    · rw [if_pos hlt] at hu
      have henter := leads_of_mem ((hshape.mem_iff _).2 (.inr (.inl rfl)))
      exact henter.trans
        (leads_map (f := id) (fun ht => (hshape.mem_iff _).2 (.inl (.inl ht))) (haccepting.leads hu))
    · rw [if_neg hlt] at hu
      have henter := leads_of_mem ((hshape.mem_iff _).2 (.inr (.inr rfl)))
      have hsecond : (a.union b n).1.Leads (b.initial + a.stateCount)
          (u - a.stateCount + a.stateCount) :=
        leads_map (f := (· + a.stateCount))
          (fun ht => (hshape.mem_iff _).2 (.inl (.inr ⟨_, ht, rfl⟩))) (hbaccepting.leads hu)
      rw [Nat.sub_add_cancel (Nat.le_of_not_lt hlt)] at hsecond
      exact henter.trans hsecond

theorem iterate_accepting (ha : a.WellFormed) (haccepting : a.Accepting) (allowEmpty : Bool)
    (n : Nat) : (a.iterate allowEmpty n).1.Accepting := by
  have hshape := iterate_shape ha allowEmpty n
  rcases haccepting.exists_final with ⟨f, hf⟩
  refine ⟨⟨a.stateCount + 1, (hshape.final_iff _).2 rfl⟩, ?_⟩
  intro u hu
  rw [hshape.initial_eq, (hshape.final_iff u).1 hu]
  have henter := leads_of_mem ((hshape.mem_iff _).2 (.inr .enter))
  have hinner : (a.iterate allowEmpty n).1.Leads a.initial f :=
    leads_map (f := id) (fun ht => (hshape.mem_iff _).2 (.inl ht)) (haccepting.leads hf)
  have hleave := leads_of_mem ((hshape.mem_iff _).2 (.inr (.leave hf)))
  exact (henter.trans hinner).trans hleave

theorem optional_accepting (ha : a.WellFormed) (haccepting : a.Accepting) (n : Nat) :
    (a.optional n).1.Accepting := by
  have hshape := optional_shape ha n
  refine ⟨⟨a.stateCount, (hshape.final_iff _).2 (.inl rfl)⟩, ?_⟩
  intro u hu
  rw [hshape.initial_eq]
  rcases (hshape.final_iff u).1 hu with rfl | hu
  · exact .refl
  · have henter := leads_of_mem ((hshape.mem_iff _).2 (.inr rfl))
    exact henter.trans
      (leads_map (f := id) (fun ht => (hshape.mem_iff _).2 (.inl ht)) (haccepting.leads hu))

theorem appendCopies_accepting (ha : a.WellFormed) (haccepting : a.Accepting) (count : Nat)
    {out : Automaton} (hout : out.WellFormed) (houtaccepting : out.Accepting) (n : Nat) :
    (a.appendCopies count out n).1.Accepting := by
  induction count generalizing out n with
  | zero =>
    exact houtaccepting
  | succ count ih =>
    have hcopy := (copy_shape ha true n).wellFormed
    exact ih (concat_shape hout hcopy).wellFormed
      (concat_accepting hout hcopy houtaccepting (copy_accepting ha haccepting true n)) _

theorem power_accepting (ha : a.WellFormed) (haccepting : a.Accepting) (count n : Nat) :
    (a.power count n).1.Accepting := by
  cases count with
  | zero =>
    exact epsilon_accepting n
  | succ count =>
    exact appendCopies_accepting ha haccepting count (copy_shape ha true n).wellFormed
      (copy_accepting ha haccepting true n) _

theorem leads_flipped (hc : ∀ t ∈ a.transitions, flipped t ∈ c.transitions) {s t : StateId}
    (h : a.Leads s t) : c.Leads t s := by
  induction h with
  | refl =>
    exact .refl
  | tail _ ht ih =>
    rcases ht with ⟨symbol, ht⟩
    exact .head ⟨symbol.reversed, hc _ ht⟩ ih

theorem reverse_accepting (ha : a.WellFormed) (haccepting : a.Accepting) (n : Nat) :
    (a.reverse n).1.Accepting := by
  rcases haccepting.exists_final with ⟨f, hf⟩
  rcases reverse_shape ha n with ⟨only, honly, hshape⟩ | hshape
  · refine ⟨⟨a.initial, (hshape.final_iff _).2 rfl⟩, ?_⟩
    intro u hu
    rw [hshape.initial_eq, (hshape.final_iff u).1 hu]
    exact leads_flipped (fun t ht => (hshape.mem_iff _).2 ⟨t, ht, rfl⟩)
      (haccepting.leads ((honly only).2 rfl))
  · refine ⟨⟨a.initial, (hshape.final_iff _).2 rfl⟩, ?_⟩
    intro u hu
    rw [hshape.initial_eq, (hshape.final_iff u).1 hu]
    have henter := leads_of_mem ((hshape.mem_iff _).2 (.inr ⟨f, hf, rfl⟩))
    exact henter.trans
      (leads_flipped (fun t ht => (hshape.mem_iff _).2 (.inl ⟨t, ht, rfl⟩)) (haccepting.leads hf))

end Automaton
end PathQuery
